import CanonJson.Proofs.Command.Choices
/-!
# Switches added to a command line

A switch may be added anywhere in front of the mark behind which everything is a file. The longer command line is not
always accepted when the shorter one is: a switch that separates an option from its value, or the files from each
other, makes it a wrong one. But if it is accepted, so is the shorter one, and the two ask for the same but for the
switches (`readArguments_added`). What is compared along the way is the readings before every argument: the choices
are the same once the added switches are set apart, and as long as the longer command line has no argument too many
the files are, too, while its run of files may be over early.
-/

namespace CanonJson.Command

/-- The arguments with some of the switches added, each in front of the mark that ends options. -/
inductive Added (switches : List Switch) : List Text → List Text → Prop where
  | same (args : List Text) : Added switches args args
  | keep (t : Text) {args args' : List Text} (ht : t ≠ endMark) (h : Added switches args args') :
      Added switches (t :: args) (t :: args')
  | insert (t : Text) (e : Switch) {args args' : List Text} (he : e ∈ switches)
      (ht : classify t = .ok (.long e none)) (h : Added switches args args') : Added switches args (t :: args')

/-- The same for arguments with their classes. -/
inductive Inserted (switches : List Switch) :
    List (ArgumentClass × Text) → List (ArgumentClass × Text) → Prop where
  | nil : Inserted switches [] []
  | keep (x : ArgumentClass × Text) {cs cs' : List (ArgumentClass × Text)} (h : Inserted switches cs cs') :
      Inserted switches (x :: cs) (x :: cs')
  | insert (t : Text) (e : Switch) {cs cs' : List (ArgumentClass × Text)} (he : e ∈ switches)
      (h : Inserted switches cs cs') : Inserted switches cs ((.long e none, t) :: cs')

section Classes

variable {switches : List Switch}

theorem Inserted.refl (cs : List (ArgumentClass × Text)) : Inserted switches cs cs := by
  induction cs with
  | nil => exact .nil
  | cons x cs ih => exact .keep x ih

theorem classify_endMark : ∃ e, classify endMark = .error e :=
  ⟨_, rfl⟩

theorem inserted_of_added {args args' : List Text} (h : Added switches args args')
    {cs' : List (ArgumentClass × Text)} (hcs' : classifyAll args' = .ok cs') :
    ∃ cs, classifyAll args = .ok cs ∧ Inserted switches cs cs' := by
  induction h generalizing cs' with
  | same args => exact ⟨cs', hcs', .refl cs'⟩
  | keep t ht h ih =>
    rw [classifyAll, if_neg ht] at hcs' ⊢
    obtain ⟨c, hc, hcs'⟩ := bind_eq_ok_iff.mp hcs'
    obtain ⟨ds', hds', hcs'⟩ := bind_eq_ok_iff.mp hcs'
    obtain rfl := Except.ok.inj hcs'
    obtain ⟨ds, hds, hinserted⟩ := ih hds'
    refine ⟨(c, t) :: ds, ?_, .keep (c, t) hinserted⟩
    rw [hc, ok_bind, hds]
    rfl
  | insert t e he ht h ih =>
    have hmark : t ≠ endMark := by
      rintro rfl
      obtain ⟨e', he'⟩ := classify_endMark
      rw [he'] at ht
      cases ht
    rw [classifyAll, if_neg hmark, ht, ok_bind] at hcs'
    obtain ⟨ds', hds', hcs'⟩ := bind_eq_ok_iff.mp hcs'
    obtain rfl := Except.ok.inj hcs'
    obtain ⟨ds, hds, hinserted⟩ := ih hds'
    exact ⟨ds, hds, .insert t e he hinserted⟩

end Classes

/-! ### Readings side by side -/

/-- What an option makes of the run of files. -/
def FileRun.atOption : FileRun → FileRun
  | .started => .over
  | run => run

theorem atOption_eq (r : Reading) : r.atOption = { r with run := r.run.atOption } := by
  obtain ⟨flags, files, run, extras⟩ := r
  cases run <;> rfl

section Over

variable {r : Reading} (t : Text)

theorem addFile_of_over (h : r.run = .over) : r.addFile t = { r with extras := t :: r.extras } := by
  rw [Reading.addFile, h]

theorem addFile_of_ne_over (h : r.run ≠ .over) :
    r.addFile t = { r with files := t :: r.files, run := .started } := by
  unfold Reading.addFile
  split
  · exact absurd (by assumption) h
  · rfl

theorem addEndOfOptions_of_over (h : r.run = .over) : r.addEndOfOptions t = { r with extras := t :: r.extras } := by
  rw [Reading.addEndOfOptions, h]

theorem addEndOfOptions_of_ne_over (h : r.run ≠ .over) : r.addEndOfOptions t = { r with run := .started } := by
  unfold Reading.addEndOfOptions
  split
  · exact absurd (by assumption) h
  · rfl

theorem addFile_flags : (r.addFile t).flags = r.flags := by
  unfold Reading.addFile
  split <;> rfl

theorem addEndOfOptions_flags : (r.addEndOfOptions t).flags = r.flags := by
  unfold Reading.addEndOfOptions
  split <;> rfl

end Over

/-- The longer command line has made the same choices, and if no argument was too many the same files, though its run
of files may be over already. -/
structure Reading.Trails (r r' : Reading) : Prop where
  flags : r'.flags = r.flags
  files : r'.extras = [] → r.extras = [] ∧ r'.files = r.files ∧ (r'.run = r.run ∨ r'.run = .over)

namespace Reading.Trails

variable {r r' : Reading} (h : r.Trails r')

include h

theorem withFlags (f : Flags) : Trails { r with flags := f } { r' with flags := f } :=
  ⟨rfl, h.files⟩

theorem atOption : r.atOption.Trails r'.atOption := by
  rw [atOption_eq, atOption_eq]
  refine ⟨h.flags, fun hextras => ?_⟩
  obtain ⟨hextras, hfiles, hrun | hrun⟩ := h.files hextras
  · exact ⟨hextras, hfiles, .inl (congrArg FileRun.atOption hrun)⟩
  · exact ⟨hextras, hfiles, .inr (congrArg FileRun.atOption hrun)⟩

/-- An option that only the longer command line has may end its run of files. -/
theorem atInserted : r.Trails r'.atOption := by
  rw [atOption_eq]
  refine ⟨h.flags, fun hextras => ?_⟩
  obtain ⟨hextras, hfiles, hrun | hrun⟩ := h.files hextras
  · refine ⟨hextras, hfiles, ?_⟩
    match hcase : r'.run with
    | .started => exact .inr rfl
    | .ahead => exact .inl (hcase.symm.trans hrun)
    | .over => exact .inr rfl
  · exact ⟨hextras, hfiles, .inr (congrArg FileRun.atOption hrun)⟩

theorem addFile (t : Text) : (r.addFile t).Trails (r'.addFile t) := by
  refine ⟨?_, fun hextras => ?_⟩
  · rw [addFile_flags, addFile_flags, h.flags]
  · have hne : r'.run ≠ .over := by
      intro hover
      rw [addFile_of_over t hover] at hextras
      cases hextras
    rw [addFile_of_ne_over t hne] at hextras ⊢
    obtain ⟨hextras, hfiles, hrun | hrun⟩ := h.files hextras
    · rw [addFile_of_ne_over t (hrun ▸ hne)]
      exact ⟨hextras, congrArg (t :: ·) hfiles, .inl rfl⟩
    · exact absurd hrun hne

theorem addEndOfOptions (t : Text) : (r.addEndOfOptions t).Trails (r'.addEndOfOptions t) := by
  refine ⟨?_, fun hextras => ?_⟩
  · rw [addEndOfOptions_flags, addEndOfOptions_flags, h.flags]
  · have hne : r'.run ≠ .over := by
      intro hover
      rw [addEndOfOptions_of_over t hover] at hextras
      cases hextras
    rw [addEndOfOptions_of_ne_over t hne] at hextras ⊢
    obtain ⟨hextras, hfiles, hrun | hrun⟩ := h.files hextras
    · rw [addEndOfOptions_of_ne_over t (hrun ▸ hne)]
      exact ⟨hextras, hfiles, .inl rfl⟩
    · exact absurd hrun hne

theorem addExtra (t : Text) :
    Trails { r.atOption with extras := t :: r.extras } { r'.atOption with extras := t :: r'.extras } :=
  ⟨h.atOption.flags, fun hextras => absurd hextras (List.cons_ne_nil t r'.extras)⟩

end Reading.Trails

theorem args_of_classifyAll {args : List Text} {cs : List (ArgumentClass × Text)} (h : classifyAll args = .ok cs) :
    cs.map Prod.snd = args := by
  induction args generalizing cs with
  | nil => rw [← Except.ok.inj h, List.map_nil]
  | cons t ts ih =>
    rw [classifyAll] at h
    split at h
    · rw [← Except.ok.inj h, List.map_cons, List.map_map]
      exact congrArg (t :: ·) (List.map_id ts)
    · obtain ⟨c, -, h⟩ := bind_eq_ok_iff.mp h
      obtain ⟨ds, hds, h⟩ := bind_eq_ok_iff.mp h
      rw [← Except.ok.inj h, List.map_cons, ih hds]

/-! ### Requests -/

def Request.turnOnAll (es : List Switch) (request : Request) : Request :=
  es.foldl (fun q e => q.turnOn e) request

/-- From a reading on, the shorter of two command lines asks for the same as the longer one but for some of the
switches: for at least one if it is shorter and the longer one does not ask for help or for the version. -/
def Answers (switches : List Switch) (cs cs' : List (ArgumentClass × Text)) (r : Reading) (request' : Request) :
    Prop :=
  ∃ es request, (∀ e ∈ es, e ∈ switches) ∧ act cs r = .ok request ∧ request' = request.turnOnAll es
    ∧ (cs' = cs ∨ es ≠ [] ∨ request' = .help ∨ request' = .version)

section Requests

variable {switches : List Switch}

/-- Arguments that both command lines have. -/
theorem Answers.keep {cs cs' : List (ArgumentClass × Text)} {r s : Reading} {request' : Request}
    (h : Answers switches cs cs' s request') (xs : List (ArgumentClass × Text)) (hact : act (xs ++ cs) r = act cs s) :
    Answers switches (xs ++ cs) (xs ++ cs') r request' := by
  obtain ⟨es, request, hes, hrequest, heq, hraised⟩ := h
  exact ⟨es, request, hes, hact.trans hrequest, heq, hraised.imp_left (congrArg (xs ++ ·))⟩

variable (hplain : ∀ e ∈ switches, e.isPlain = true)

include hplain

/-- If the longer command line is accepted from a reading on, the shorter one is from the reading beside it. -/
theorem act_of_inserted {cs cs' : List (ArgumentClass × Text)} (h : Inserted switches cs cs') {r r' : Reading}
    (hr : r.Trails r') {request' : Request} (hact : act cs' r' = .ok request') :
    Answers switches cs cs' r request' := by
  fun_induction act cs' r' generalizing cs r request' with
  | case1 r' hextras' =>
    cases h
    obtain ⟨hextras, hfiles, -⟩ := hr.files (List.isEmpty_iff.mp hextras')
    obtain rfl := Except.ok.inj hact
    refine ⟨[], _, by simp, by rw [act, if_pos (List.isEmpty_iff.mpr hextras)], ?_, .inl rfl⟩
    rw [hr.flags, hfiles]
    rfl
  | case2 r' hextras' => cases hact
  | case3 t rest r' ih =>
    cases h with
    | keep _ h => exact (ih h (hr.addFile t) hact).keep [(.value, t)] (by rw [List.singleton_append, act])
  | case4 t rest r' ih =>
    cases h with
    | keep _ h =>
      exact (ih h (hr.addEndOfOptions t) hact).keep [(.endOfOptions, t)] (by rw [List.singleton_append, act])
  | case5 t rest r' ih =>
    cases h with
    | keep _ h => exact (ih h (hr.addExtra t) hact).keep [(.unknown, t)] (by rw [List.singleton_append, act])
  | case6 tail =>
    cases h with
    | keep _ h =>
      have hhelp : request' = .help := by
        obtain ⟨_, -, hhelp⟩ := bind_eq_ok_iff.mp hact
        exact (Except.ok.inj hhelp).symm
      exact ⟨[], request', by simp, by rwa [act], rfl, .inr (.inr (.inl hhelp))⟩
  | case7 s v _ rest r' hvalue ih =>
    cases h with
    | keep _ h =>
      obtain ⟨f, hf, hact⟩ := bind_eq_ok_iff.mp hact
      refine (ih f h (hr.atOption.withFlags f) hact).keep [(.long s (some v), _)] ?_
      rw [List.singleton_append, act, if_pos hvalue, ← hr.flags, hf, ok_bind]
  | case8 s v _ rest r' hvalue => cases hact
  | case9 t rest r' =>
    have hhelp : request' = .help := (Except.ok.inj hact).symm
    cases h with
    | keep _ h => exact ⟨[], request', by simp, by rwa [act], rfl, .inr (.inr (.inl hhelp))⟩
    | insert _ _ he h => exact absurd (hplain _ he) (by decide)
  | case10 t rest r' =>
    have hversion : request' = .version := (Except.ok.inj hact).symm
    cases h with
    | keep _ h => exact ⟨[], request', by simp, by rwa [act], rfl, .inr (.inr (.inr hversion))⟩
    | insert _ _ he h => exact absurd (hplain _ he) (by decide)
  | case11 s t r' hhelp hversion hvalue v rest ih =>
    cases h with
    | keep _ h =>
      cases h with
      | keep _ h =>
        obtain ⟨f, hf, hact⟩ := bind_eq_ok_iff.mp hact
        refine (ih f h (hr.atOption.withFlags f) hact).keep [(.long s none, t), (.value, v)] ?_
        rw [List.cons_append, List.singleton_append, act_setting hhelp hversion hvalue, ← hr.flags, hf, ok_bind]
    | insert _ _ he h =>
      have hswitch := hplain s he
      rw [Switch.isPlain, hvalue] at hswitch
      simp at hswitch
  | case12 s _ rest r' hhelp hversion hvalue hrest => cases hact
  | case13 s t rest r' hhelp hversion hvalue ih =>
    cases h with
    | keep _ h =>
      refine (ih h (hr.atOption.withFlags _) hact).keep [(.long s none, t)] ?_
      rw [List.singleton_append, act_switch hhelp hversion hvalue, ← hr.flags]
    | insert _ _ he h =>
      -- The choice is made by both, and taken back from what the shorter one asks for in the end.
      have htrails : (r.turnOn s).Trails { r'.atOption with flags := r'.flags.turnOn s } := by
        rw [hr.flags]
        exact hr.atInserted.withFlags _
      obtain ⟨es, turned, hes, hturned, rfl, -⟩ := ih h htrails hact
      rw [act_turnOn] at hturned
      obtain ⟨request, hrequest, rfl⟩ := map_eq_ok_iff.mp hturned
      exact ⟨s :: es, request, List.forall_mem_cons.mpr ⟨he, hes⟩, hrequest, rfl,
        .inr (.inl (List.cons_ne_nil s es))⟩

/-- If a command line with switches added is accepted, so is the one without them, and both ask for the same but for
the added switches. -/
theorem readArguments_added {args args' : List Text} (h : Added switches args args') {request' : Request}
    (hargs' : readArguments args' = .ok request') :
    ∃ es request, (∀ e ∈ es, e ∈ switches) ∧ readArguments args = .ok request
      ∧ request' = request.turnOnAll es
      ∧ (args' = args ∨ es ≠ [] ∨ request' = .help ∨ request' = .version) := by
  obtain ⟨cs', hcs', hact⟩ := bind_eq_ok_iff.mp hargs'
  obtain ⟨cs, hcs, hinserted⟩ := inserted_of_added h hcs'
  have htrails : Reading.Trails {} {} := ⟨rfl, fun _ => ⟨rfl, rfl, .inl rfl⟩⟩
  obtain ⟨es, request, hes, hrequest, heq, hraised⟩ := act_of_inserted hplain hinserted htrails hact
  refine ⟨es, request, hes, by rw [readArguments, hcs, ok_bind, hrequest], heq, hraised.imp_left fun hsame => ?_⟩
  rw [← args_of_classifyAll hcs', ← args_of_classifyAll hcs, hsame]

end Requests

end CanonJson.Command
