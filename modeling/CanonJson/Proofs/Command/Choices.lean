import CanonJson.Command.Run
import CanonJson.Proofs.Outcome
/-!
# Command lines and their plans

A switch in front of a command line only adds to the choices that the rest makes. A plan is made of parts
that depend on different choices: what is checked or digested has no say in order, layout and limits.
-/

namespace CanonJson.Command

/-! ### A switch in front -/

def Flags.checked (f : Flags) : Flags :=
  { f with check := true }

def Request.checked : Request → Request
  | .format f files => .format f.checked files
  | request => request

/-- The same reading, with one more choice. -/
def Reading.turnOn (r : Reading) (s : Switch) : Reading :=
  { r with flags := r.flags.turnOn s }

def Request.turnOn (s : Switch) : Request → Request
  | .format f files => .format (f.turnOn s) files
  | request => request

section Choices

variable (f : Flags) (e s : Switch) (t : Text)

theorem turnOn_turnOn : (f.turnOn e).turnOn s = (f.turnOn s).turnOn e := by
  cases e <;> cases s <;> rfl

theorem setEmpty_turnOn : (f.turnOn e).setEmpty s = (f.setEmpty s).turnOn e := by
  cases e <;> cases s <;> rfl

theorem setValue_turnOn : setValue (f.turnOn e) s t = (setValue f s t).map (Flags.turnOn · e) := by
  cases s with
  | keyOrder =>
    simp only [setValue]
    split
    · cases e <;> rfl
    · rfl
  | indent | maxDepth | jobs =>
    simp only [setValue, map_bind]
    cases e <;> rfl
  | sortByValue => cases e <;> rfl
  | _ => exact congrArg Except.ok (turnOn_turnOn f e _)

theorem setAttached_turnOn :
    setAttached (f.turnOn e) s t = (setAttached f s t).map (Flags.turnOn · e) := by
  rw [setAttached, setAttached]
  split
  · exact congrArg Except.ok (setEmpty_turnOn f e s)
  · exact setValue_turnOn f e s t

end Choices

section Steps

variable (r : Reading) (e : Switch) (t : Text)

theorem atOption_turnOn : (r.turnOn e).atOption = r.atOption.turnOn e := by
  unfold Reading.atOption
  cases h : r.run <;> simp [Reading.turnOn, h]

theorem addFile_turnOn : (r.turnOn e).addFile t = (r.addFile t).turnOn e := by
  unfold Reading.addFile
  cases h : r.run <;> simp [Reading.turnOn, h]

theorem addEndOfOptions_turnOn : (r.turnOn e).addEndOfOptions t = (r.addEndOfOptions t).turnOn e := by
  unfold Reading.addEndOfOptions
  cases h : r.run <;> simp [Reading.turnOn, h]

end Steps

section Options

variable {s : Switch} (hhelp : s ≠ .help) (hversion : s ≠ .version)

include hhelp hversion

theorem act_switch (hvalue : ¬ s.takesValue = true) (t : Text) (rest : List (ArgumentClass × Text))
    (r : Reading) :
    act ((.long s none, t) :: rest) r = act rest { r.atOption with flags := r.flags.turnOn s } := by
  by_cases hrest : ∃ v rest', rest = (.value, v) :: rest'
  · obtain ⟨v, rest', rfl⟩ := hrest
    conv => lhs; rw [act.eq_def]
    simp only [if_neg hvalue]
  · rw [act, if_neg hvalue]
    · exact hhelp
    · exact hversion
    · intro v rest' h
      exact hrest ⟨v, rest', h⟩

theorem act_setting (hvalue : s.takesValue = true) (t v : Text) (rest : List (ArgumentClass × Text))
    (r : Reading) :
    act ((.long s none, t) :: (.value, v) :: rest) r
      = setValue r.flags s v >>= fun f => act rest { r.atOption with flags := f } := by
  rw [act, if_pos hvalue]
  · exact hhelp
  · exact hversion

theorem act_missing (hvalue : s.takesValue = true) (t : Text) {rest : List (ArgumentClass × Text)}
    (hrest : ∀ v rest', rest ≠ (.value, v) :: rest') (r : Reading) :
    act ((.long s none, t) :: rest) r = .error (.missingValue s) := by
  rw [act, if_pos hvalue]
  · exact hhelp
  · exact hversion
  · exact hrest

end Options

/-- A choice that is made before the arguments act is still made after they have. -/
theorem act_turnOn (e : Switch) (cs : List (ArgumentClass × Text)) (r : Reading) :
    act cs (r.turnOn e) = (act cs r).map (Request.turnOn e) := by
  fun_induction act cs r with
  | case1 r hextras =>
    rw [act, if_pos (show (r.turnOn e).extras.isEmpty = true from hextras)]
    rfl
  | case2 r hextras =>
    rw [act, if_neg (show ¬ (r.turnOn e).extras.isEmpty = true from hextras)]
    rfl
  | case3 t rest r ih => rw [act, addFile_turnOn, ih]
  | case4 t rest r ih => rw [act, addEndOfOptions_turnOn, ih]
  | case5 t rest r ih =>
    rw [act, atOption_turnOn]
    exact ih
  | case6 tail =>
    rw [act, map_bind]
    rfl
  | case7 s v _ rest r hvalue ih =>
    rw [act, if_pos hvalue, atOption_turnOn, Reading.turnOn, setAttached_turnOn]
    cases setAttached r.flags s v with
    | error e => rfl
    | ok f => exact ih f
  | case8 s v _ rest r hvalue =>
    rw [act, if_neg hvalue]
    rfl
  | case9 | case10 => rfl
  | case11 s _ r hhelp hversion hvalue v rest ih =>
    rw [act_setting hhelp hversion hvalue, atOption_turnOn, Reading.turnOn, setValue_turnOn]
    cases setValue r.flags s v with
    | error e => rfl
    | ok f => exact ih f
  | case12 s _ rest r hhelp hversion hvalue hrest =>
    rw [act_missing hhelp hversion hvalue _ hrest]
    rfl
  | case13 s _ rest r hhelp hversion hvalue ih =>
    have hflags : (r.turnOn e).flags.turnOn s = (r.flags.turnOn s).turnOn e := turnOn_turnOn r.flags e s
    rw [act_switch hhelp hversion hvalue, atOption_turnOn, hflags]
    exact ih

/-- Whether an option only turns something on. -/
def Switch.isPlain (e : Switch) : Bool :=
  e ≠ .help && e ≠ .version && !e.takesValue

/-- A switch in front of a command line makes one more choice. -/
theorem readArguments_turnOn {e : Switch} (hclass : classify (Text.ofString e.name) = .ok (.long e none))
    (hmark : Text.ofString e.name ≠ endMark) (he : e.isPlain = true) (args : List Text) :
    readArguments (Text.ofString e.name :: args) = (readArguments args).map (Request.turnOn e) := by
  simp only [Switch.isPlain, Bool.and_eq_true, Bool.not_eq_true', decide_eq_true_eq] at he
  rw [readArguments, readArguments, classifyAll, if_neg hmark, hclass, ok_bind, map_bind]
  cases classifyAll args with
  | error e => rfl
  | ok cs =>
    have hact : act ((.long e none, Text.ofString e.name) :: cs) {} = act cs (Reading.turnOn {} e) :=
      act_switch he.1.1 he.1.2 (by simp [he.2]) _ _ _
    exact hact.trans (act_turnOn e cs {})

theorem readArguments_check (args : List Text) :
    readArguments (Text.ofString "--check" :: args) = (readArguments args).map Request.checked := by
  have hrequest : Request.turnOn .check = Request.checked := by
    funext request
    cases request <;> rfl
  rw [← hrequest]
  exact @readArguments_turnOn .check rfl (by decide) rfl args

theorem readArguments_digest (args : List Text) :
    readArguments (Text.ofString "--digest" :: args) = (readArguments args).map (Request.turnOn .digest) :=
  @readArguments_turnOn .digest rfl (by decide) rfl args

/-! ### Plans -/

/-- What a plan takes over from the choices. -/
structure Flags.Planned (f : Flags) (p : Plan) : Prop where
  order : f.order = .ok p.order
  layout : f.layout = .ok p.layout
  limit : ∃ n, positive defaultDepth .depthNotPositive f.maxDepth = .ok n ∧ p.limit = n.toNat
  jobs : 1 ≤ p.jobs
  check : p.check = f.check
  digest : p.digest = f.digest
  quiet : p.quiet = f.quiet

theorem one_le_of_positive {default : Nat} {e : UsageError} {x : Setting Int} {n : Int}
    (hdefault : 1 ≤ default) (h : positive default e x = .ok n) : 1 ≤ n := by
  cases x with
  | absent =>
    obtain rfl := Except.ok.inj h
    omega
  | empty => cases h
  | given m =>
    rw [positive] at h
    split at h
    · cases h
    · obtain rfl := Except.ok.inj h
      omega

theorem planned_of_plan {f : Flags} {p : Plan} (h : f.plan = .ok p) : f.Planned p := by
  obtain ⟨limit, hlimit, h⟩ := bind_eq_ok_iff.mp h
  obtain ⟨jobs, hjobs, h⟩ := bind_eq_ok_iff.mp h
  split at h
  · cases h
  · obtain ⟨order, horder, h⟩ := bind_eq_ok_iff.mp h
    obtain ⟨layout, hlayout, h⟩ := bind_eq_ok_iff.mp h
    obtain rfl := Except.ok.inj h
    exact ⟨horder, hlayout, ⟨limit, hlimit, rfl⟩, one_le_of_positive (by decide) hjobs, rfl, rfl, rfl⟩

/-- What is checked or digested is taken over, and nothing else depends on it. -/
theorem plan_verdict (f : Flags) (check digest : Bool) :
    Flags.plan { f with check := check, digest := digest }
      = f.plan.map fun p => { p with check := check, digest := digest } := by
  unfold Flags.plan
  cases positive defaultDepth .depthNotPositive f.maxDepth with
  | error e => rfl
  | ok limit =>
  cases positive 1 .jobsNotPositive f.jobs with
  | error e => rfl
  | ok jobs =>
  by_cases hloud : (f.quiet && f.verbose) = true
  · simp only [hloud, ok_bind, if_true]
    rfl
  · simp only [hloud, ok_bind]
    change (f.order >>= fun order => f.layout >>= fun layout => _) = (f.order >>= fun order => _).map _
    cases f.order with
    | error e => rfl
    | ok order =>
      cases f.layout with
      | error e => rfl
      | ok layout => rfl

theorem plan_checked {f : Flags} {p : Plan} (h : f.plan = .ok p) :
    f.checked.plan = .ok { p with check := true } := by
  have hverdict := plan_verdict f true f.digest
  rw [h, ← (planned_of_plan h).digest] at hverdict
  rw [Flags.checked, ← (planned_of_plan h).digest]
  exact hverdict

section Planned

variable {f : Flags} {p : Plan} (h : f.Planned p)

include h

theorem Flags.Planned.arraysBy (hsort : f.sortByValue = .absent) : p.order.arraysBy = none := by
  have horder := h.order
  rw [Flags.order, hsort] at horder
  cases hkey : f.keyOrder with
  | absent | given =>
    rw [hkey] at horder
    rw [← Except.ok.inj horder]
  | empty =>
    rw [hkey] at horder
    cases horder

theorem Flags.Planned.numbers (hnumbers : f.normalizeNumbers = false) (hpreset : f.rfc8785 = false) :
    p.layout.numbers = .verbatim := by
  have hlayout := h.layout
  rw [Flags.layout, hnumbers, hpreset] at hlayout
  cases hindent : f.indent with
  | absent | given =>
    rw [hindent] at hlayout
    rw [← Except.ok.inj hlayout]
    rfl
  | empty =>
    rw [hindent] at hlayout
    obtain ⟨_, -, hlayout⟩ := bind_eq_ok_iff.mp hlayout
    rw [← Except.ok.inj hlayout]
    rfl

end Planned

end CanonJson.Command
