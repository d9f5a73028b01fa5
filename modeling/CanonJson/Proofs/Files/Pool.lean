import CanonJson.Proofs.Files.Stages
import CanonJson.Proofs.Number.Digits
/-!
# Updating files on a pool of threads

A pool may take the steps of different updates in turn, in any order. No two files have a place for a temporary
file in common, so each update goes through the stages it goes through alone, and ends as it ends alone. What a
batch reports and leaves does not depend on the order of its files, nor on the threads.
-/

namespace CanonJson

open FileSystem

/-! ### No place in common -/

/-- The names for temporary files are equally long, so that a name can be told from what stands before it. -/
def EvenNames (names : List Text) : Prop :=
  ∃ n, ∀ name ∈ names, name.length = n

theorem evenNames_temporaryNames : EvenNames temporaryNames := by
  refine ⟨8, fun name hname => ?_⟩
  obtain ⟨n, hn, rfl⟩ := List.mem_map.mp hname
  have hlt : n < 10 ^ 8 := Nat.lt_trans (List.mem_range.mp hn) (by decide)
  exact Digits.length_zeroFill (Digits.length_textOfNat_le (by decide) hlt)

theorem exists_temporaryNames_eq_cons : ∃ names, temporaryNames = Text.ofString "00000000" :: names := by
  rw [temporaryNames, List.range_succ_eq_map]
  exact ⟨_, rfl⟩

theorem temporaryPlace_inj {place place' : List Text} {name name' : Text} (hplace : place ≠ [])
    (hplace' : place' ≠ []) (hlength : name.length = name'.length)
    (h : temporaryPlace place name = temporaryPlace place' name') : place = place' := by
  obtain ⟨hdirectory, hname⟩ := List.append_inj' h rfl
  have hlast : place.getLastD [] = place'.getLastD [] := by
    have hnamed := (List.append_inj' (List.singleton_inj.mp hname) rfl).1
    have hdotted := (List.append_inj' hnamed hlength).1
    exact List.append_cancel_left (List.append_inj' hdotted rfl).1
  rw [← List.dropLast_append_getLast hplace, ← List.dropLast_append_getLast hplace', hdirectory]
  rw [List.getLastD_eq_getLast?, List.getLastD_eq_getLast?, List.getLast?_eq_getLast_of_ne_nil hplace,
    List.getLast?_eq_getLast_of_ne_nil hplace'] at hlast
  simpa using hlast

theorem not_owns_of_owns {r : Replacement} {fs : FileSystem} {p p' : Path} {q : List Text} {f f' : File}
    (hnames : EvenNames r.names) (hroot : fs.fileAt? [] = none) (hfile : fs.fileAt? (fs.place p) = some f)
    (hfile' : fs.fileAt? (fs.place p') = some f') (hplaces : fs.place p ≠ fs.place p') (h : Owns r fs p q) :
    ¬ Owns r fs p' q := by
  have hnonempty : ∀ {place : List Text} {g : File}, fs.fileAt? place = some g → place ≠ [] := by
    rintro place g hg rfl
    cases hroot.symm.trans hg
  rcases h with rfl | ⟨hnode, name, hname, rfl⟩
  · rintro (heq | ⟨hnode, -⟩)
    · exact hplaces heq
    · simp [nodeAt_of_some hfile] at hnode
  · rintro (heq | ⟨-, name', hname', heq⟩)
    · rw [heq, nodeAt_of_some hfile'] at hnode
      cases hnode
    · obtain ⟨n, hn⟩ := hnames
      exact hplaces (temporaryPlace_inj (hnonempty hfile) (hnonempty hfile')
        ((hn name hname).trans (hn name' hname').symm) heq)

/-! ### The pool -/

namespace Pool

/-- Each job is where it would be alone after as many turns, and so are its places; all others are as they
were. -/
structure Tracks (o : UpdateOptions) (r : Replacement) (paths : List Path) (fs : FileSystem) (turns : Nat → Nat)
    (pool : Pool) : Prop where
  jobs : ∀ i, pool.jobs[i]? = paths[i]?.map fun p => (p, (alone o r p fs (turns i)).1)
  grown : Grown fs pool.files
  owned : ∀ i p, paths[i]? = some p → ∀ q, Owns r fs p q →
    pool.files.fileAt? q = (alone o r p fs (turns i)).2.fileAt? q
  others : ∀ q, (∀ p ∈ paths, ¬ Owns r fs p q) → pool.files.fileAt? q = fs.fileAt? q

end Pool

theorem alone_within {o : UpdateOptions} {r : Replacement} {p : Path} {fs : FileSystem} {f : File}
    (hread : fs.read p = .ok (fs.place p, f)) (turns : Nat) :
    (alone o r p fs turns).1.Within r fs p ∧ Grown fs (alone o r p fs turns).2 := by
  induction turns with
  | zero => exact ⟨trivial, rfl, rfl, fun _ _ => rfl⟩
  | succ turns ih =>
    obtain ⟨hwithin, hgrown⟩ := ih
    obtain ⟨hstage, hedit⟩ := Stage.within_next (o := o) hread hgrown hwithin
    rw [alone, Function.iterate_succ_apply']
    exact ⟨hstage, Edit.grown_apply hedit (place_of_read hread).2 hgrown⟩

namespace Pool

variable {o : UpdateOptions} {r : Replacement} {paths : List Path} {fs : FileSystem} {pool : Pool}
  {turns : Nat → Nat}

theorem tracks_start : Tracks o r paths fs (fun _ => 0) (start paths fs) where
  jobs _ := List.getElem?_map
  grown := ⟨rfl, rfl, fun _ _ => rfl⟩
  owned _ _ _ _ _ := rfl
  others _ _ := rfl

theorem place_ne_of_ne {i j : Nat} {p p' : Path} (hdistinct : (paths.map fs.place).Nodup)
    (hi : paths[i]? = some p) (hj : paths[j]? = some p') (hij : j ≠ i) : fs.place p' ≠ fs.place p := by
  intro heq
  have hlt : j < (paths.map fs.place).length := by
    rw [List.length_map]
    exact (List.getElem?_eq_some_iff.mp hj).1
  apply hij
  apply (List.getElem?_inj hlt hdistinct).mp
  rw [List.getElem?_map, List.getElem?_map, hi, hj, Option.map_some, Option.map_some, heq]

variable (hread : ∀ p ∈ paths, ∃ place f, fs.read p = .ok (place, f))
  (hdistinct : (paths.map fs.place).Nodup) (hnames : EvenNames r.names) (hroot : fs.fileAt? [] = none)

include hread hdistinct hnames hroot

theorem Tracks.turn (h : Tracks o r paths fs turns pool) (i : Nat) :
    Tracks o r paths fs (Function.update turns i (turns i + 1)) (pool.turn o r i) := by
  have hjob := h.jobs i
  cases hpath : paths[i]? with
  | none =>
    -- There is no such job, and nobody looks at its turns.
    rw [hpath, Option.map_none] at hjob
    have hturns : ∀ j p, paths[j]? = some p → Function.update turns i (turns i + 1) j = turns j := by
      intro j p hj
      apply Function.update_of_ne
      rintro rfl
      cases hpath.symm.trans hj
    rw [Pool.turn, hjob]
    refine ⟨fun j => ?_, h.grown, fun j p hj => ?_, h.others⟩
    · rw [h.jobs]
      cases hj : paths[j]? with
      | none => rfl
      | some p => rw [hturns j p hj]
    · rw [hturns j p hj]
      exact h.owned j p hj
  | some p =>
    rw [hpath, Option.map_some] at hjob
    obtain ⟨place, f, hfile⟩ := hread p (List.mem_of_getElem? hpath)
    obtain ⟨rfl, hat⟩ := place_of_read hfile
    obtain ⟨hwithin, hgrown⟩ := alone_within (o := o) (r := r) hfile (turns i)
    have hnext := Stage.next_congr (o := o) hfile hgrown hwithin h.grown (h.owned i p hpath)
    obtain ⟨-, hedit⟩ := Stage.within_next (o := o) hfile hgrown hwithin
    have halone : alone o r p fs (turns i + 1) = advance o r p (alone o r p fs (turns i)) :=
      Function.iterate_succ_apply' ..
    have hturn : pool.turn o r i = ⟨pool.jobs.set i (p, (alone o r p fs (turns i + 1)).1),
        ((alone o r p fs (turns i)).1.next o r p (alone o r p fs (turns i)).2).2.apply pool.files⟩ := by
      rw [Pool.turn, hjob]
      simp only [hnext, halone, advance]
    rw [hturn]
    refine ⟨fun j => ?_, Edit.grown_apply hedit hat h.grown, fun j p' hj q hq => ?_, fun q hq => ?_⟩
    · by_cases hij : j = i
      · subst hij
        have hlt : j < pool.jobs.length := (List.getElem?_eq_some_iff.mp hjob).1
        rw [List.getElem?_set_self hlt, hpath, Option.map_some, Function.update_self]
      · rw [List.getElem?_set_ne (Ne.symm hij), h.jobs, Function.update_of_ne hij]
    · by_cases hij : j = i
      · subst hij
        obtain rfl := Option.some.inj (hpath.symm.trans hj)
        rw [Function.update_self, halone]
        exact Edit.fileAt?_apply_congr hedit (h.owned j p hj) q hq
      · rw [Function.update_of_ne hij, ← h.owned j p' hj q hq]
        apply Edit.fileAt?_apply_of_not_owns hedit
        obtain ⟨place', f', hfile'⟩ := hread p' (List.mem_of_getElem? hj)
        obtain ⟨rfl, hat'⟩ := place_of_read hfile'
        exact not_owns_of_owns hnames hroot hat' hat (place_ne_of_ne hdistinct hpath hj hij) hq
    · rw [Edit.fileAt?_apply_of_not_owns hedit (hq p (List.mem_of_getElem? hpath)), h.others q hq]

theorem Tracks.run (h : Tracks o r paths fs turns pool) (schedule : List Nat) :
    Tracks o r paths fs (fun i => turns i + schedule.count i) (pool.run o r schedule) := by
  induction schedule generalizing pool turns with
  | nil => exact h
  | cons i schedule ih =>
    have hrest := ih (h.turn hread hdistinct hnames hroot i)
    have hcount : (fun j => Function.update turns i (turns i + 1) j + schedule.count j)
        = fun j => turns j + (i :: schedule).count j := by
      funext j
      by_cases hij : j = i
      · subst hij
        rw [Function.update_self, List.count_cons_self]
        omega
      · rw [Function.update_of_ne hij, List.count_cons_of_ne (Ne.symm hij)]
    rw [hcount] at hrest
    exact hrest

/-- When every job has had its turns, all are finished, with the results and the files of updates alone. -/
theorem run_start {schedule : List Nat} (hturns : ∀ i < paths.length, maxTurns ≤ schedule.count i) :
    ((start paths fs).run o r schedule).jobs = paths.map (fun p => (p, .finished (updateFile o r p fs).1))
      ∧ EachUpdated o r paths fs ((start paths fs).run o r schedule).files := by
  have htracks := tracks_start.run (o := o) hread hdistinct hnames hroot schedule
  have halone : ∀ i p, paths[i]? = some p → alone o r p fs (0 + schedule.count i)
      = (.finished (updateFile o r p fs).1, (updateFile o r p fs).2) := by
    intro i p hi
    have hcount := hturns i (List.getElem?_eq_some_iff.mp hi).1
    exact alone_eq_updateFile o r p fs (by omega)
  constructor
  · apply List.ext_getElem?
    intro i
    rw [htracks.jobs, List.getElem?_map]
    cases hi : paths[i]? with
    | none => rfl
    | some p => simp only [Option.map_some, halone i p hi]
  · refine ⟨htracks.grown.home, htracks.grown.directories, fun p hp => ?_, fun q hq => ?_⟩
    · obtain ⟨i, hi⟩ := List.mem_iff_getElem?.mp hp
      rw [htracks.owned i p hi _ (.inl rfl), halone i p hi]
    · by_cases howned : ∃ p ∈ paths, Owns r fs p q
      · obtain ⟨p, hp, howns⟩ := howned
        obtain ⟨i, hi⟩ := List.mem_iff_getElem?.mp hp
        obtain ⟨place, f, hfile⟩ := hread p hp
        obtain ⟨rfl, -⟩ := place_of_read hfile
        have hne : q ≠ fs.place p := fun heq => hq (heq ▸ List.mem_map_of_mem hp)
        rw [htracks.owned i p hi q howns, halone i p hi, fileAt?_snd_updateFile_of_ne hfile hne]
      · exact htracks.others q fun p hp howns => howned ⟨p, hp, howns⟩

end Pool

/-! ### Batches in any order, on any number of threads -/

section Ready

variable {o : UpdateOptions} {r : Replacement} {limit : Nat} {paths : List Path} {fs : FileSystem}

theorem fst_updateFile_of_ready {p : Path} (hp : p ∈ paths)
    (hread : ∃ place f, fs.read p = .ok (place, f)) (hready : o.Ready limit (fs.contents p))
    (hwork : o.write = true → Workable o r paths fs) : (updateFile o r p fs).1 = .ok (o.report fs p) := by
  cases hwrite : o.write with
  | true =>
    obtain ⟨fs', hupdate, -⟩ := updateFile_settles hwrite hready hp (hwork hwrite)
    rw [hupdate]
  | false =>
    obtain ⟨place, f, hfile⟩ := hread
    rw [contents_of_read hfile] at hready
    rw [updateFile_of_kept hready hfile (.inl hwrite)]

theorem renew_of_malformed {p : Path} {place : List Text} {f : File} (hread : fs.read p = .ok (place, f))
    (hready : o.Ready limit f.bytes) {e : ParseError} (h : parse limit (.bytes f.bytes) = .error (.malformed e)) :
    fs.renew o place = fs := by
  apply renew_of_none (place_of_read hread).2
  rw [UpdateOptions.successor?, outcomeOf_of_malformed (hready.formatContents_of_malformed h)]
  rfl

end Ready

theorem updateFiles_of_one_le {workers : Int} (h : 1 ≤ workers) (o : UpdateOptions) (r : Replacement)
    (paths : List Path) (fs : FileSystem) : updateFiles o workers r paths fs = updateEach o r paths fs := by
  rw [updateFiles, if_neg (by omega)]

/-- The files of a batch are independent. If none of them makes an update fail, the batch reports on each what its
update alone reports and leaves each as its update alone leaves it, in whatever order they are given and in
whatever order threads take the steps of the updates; a malformed file might as well be left out. And a batch that
does not run on threads fails exactly if the update of some file alone fails: it leaves what the files before the
first such file have become. -/
theorem updateFiles_independent (o : UpdateOptions) (r : Replacement) (paths : List Path) (fs : FileSystem)
    (hread : ∀ p ∈ paths, ∃ place f, fs.read p = .ok (place, f)) (hdistinct : (paths.map fs.place).Nodup) :
    (∀ limit, (∀ p ∈ paths, o.Ready limit (fs.contents p)) → (o.write = true → Workable o r paths fs) →
      (∀ p ∈ paths, (updateFile o r p fs).1 = .ok (o.report fs p))
      ∧ ∃ final, EachUpdated o r paths fs final
        ∧ (∀ paths', paths'.Perm paths →
          (∀ workers, 1 ≤ workers →
            updateFiles o workers r paths' fs = (.ok (paths'.map (o.report fs)), final))
          ∧ (EvenNames r.names → fs.fileAt? [] = none →
            ∀ schedule : List Nat, (∀ i < paths'.length, maxTurns ≤ schedule.count i) →
              ((Pool.start paths' fs).run o r schedule).jobs
                  = paths'.map (fun p => (p, .finished (.ok (o.report fs p))))
                ∧ SameFiles final ((Pool.start paths' fs).run o r schedule).files))
        ∧ ∀ p ∈ paths, ∀ e, parse limit (.bytes (fs.contents p)) = .error (.malformed e) →
          final.fileAt? (fs.place p) = fs.fileAt? (fs.place p)
          ∧ ∀ workers, 1 ≤ workers →
            updateFiles o workers r (paths.erase p) fs = (.ok ((paths.erase p).map (o.report fs)), final))
    ∧ ∀ e fs', updateFiles o 1 r paths fs = (.error e, fs')
      ↔ ∃ front p rest reports, paths = front ++ p :: rest
        ∧ updateFiles o 1 r front fs = (.ok reports, fs') ∧ (updateFile o r p fs).1 = .error e := by
  constructor
  · intro limit hready hwork
    have halone : ∀ p ∈ paths, (updateFile o r p fs).1 = .ok (o.report fs p) :=
      fun p hp => fst_updateFile_of_ready hp (hread p hp) (hready p hp) hwork
    have hresults : ∀ paths', (∀ p ∈ paths', p ∈ paths) →
        resultsAlone o r fs paths' = (paths'.map (o.report fs)).map .ok := by
      intro paths' hsub
      rw [resultsAlone, List.map_map]
      exact List.map_congr_left fun p hp => halone p (hsub p hp)
    have hfinal := eachUpdated_renewAll hread hdistinct (hresults paths fun _ h => h)
    refine ⟨halone, fs.renewAll o (paths.map fs.place), hfinal, ?_, ?_⟩
    · intro paths' hpaths
      have hread' : ∀ p ∈ paths', ∃ place f, fs.read p = .ok (place, f) :=
        fun p hp => hread p (hpaths.mem_iff.mp hp)
      have hdistinct' := (hpaths.map fs.place).nodup_iff.mpr hdistinct
      constructor
      · intro workers hworkers
        rw [updateFiles_of_one_le hworkers, ← renewAll_perm (hpaths.map fs.place)]
        exact updateEach_of_resultsAlone hread' hdistinct' (hresults paths' fun p hp => hpaths.mem_iff.mp hp)
      · intro hnames hroot schedule hturns
        obtain ⟨hjobs, hfiles⟩ := Pool.run_start (o := o) hread' hdistinct' hnames hroot hturns
        refine ⟨?_, hfinal.sameFiles hfiles hpaths⟩
        rw [hjobs]
        exact List.map_congr_left fun p hp => by rw [halone p (hpaths.mem_iff.mp hp)]
    · intro p hp e hparse
      obtain ⟨place, f, hfile⟩ := hread p hp
      obtain ⟨rfl, -⟩ := place_of_read hfile
      have hready' := hready p hp
      rw [contents_of_read hfile] at hready' hparse
      have hkept : fs.renew o (fs.place p) = fs := renew_of_malformed hfile hready' hparse
      have herase := (List.perm_cons_erase hp).map fs.place
      constructor
      · rw [fileAt?_renewAll hdistinct, if_pos (List.mem_map_of_mem hp), hkept]
      · intro workers hworkers
        have hsub : ∀ q ∈ paths.erase p, q ∈ paths := fun q hq => List.mem_of_mem_erase hq
        have hdistinct' := (List.nodup_cons.mp (herase.nodup_iff.mp hdistinct)).2
        rw [updateFiles_of_one_le hworkers, renewAll_perm herase, List.map_cons, renewAll_cons, hkept]
        exact updateEach_of_resultsAlone (fun q hq => hread q (hsub q hq)) hdistinct' (hresults _ hsub)
  · intro e fs'
    rw [updateFiles_of_one_le (Int.le_refl 1), updateEach_eq_error_iff hread hdistinct]
    simp only [updateFiles_of_one_le (Int.le_refl 1)]

/-- A file that has to be rewritten and a malformed one, in both orders and on two threads; and the same files
where nothing can be renamed. -/
theorem updateFiles_independent_mixed :
    let a : Path := Path.ofText (Text.ofChars ['a'])
    let b : Path := Path.ofText (Text.ofChars ['b'])
    let fs : FileSystem :=
      { files := [([Text.ofChars ['a']], ⟨0o644, [0x30]⟩), ([Text.ofChars ['b']], ⟨0o600, [0xFF]⟩)] }
    let o : UpdateOptions := ⟨some {}, some {}, .ok 512, true⟩
    let refusing : Replacement := { refused := some .rename }
    let schedule : List Nat := [0, 1, 0, 1, 0, 1, 0, 1, 0, 1, 0, 1]
    Workable o {} [a, b] fs
      ∧ (∃ final, updateFiles o 1 {} [a, b] fs = (.ok [o.report fs a, o.report fs b], final)
        ∧ updateFiles o 4 {} [b, a] fs = (.ok [o.report fs b, o.report fs a], final)
        ∧ updateFiles o 1 {} [a] fs = (.ok [o.report fs a], final)
        ∧ SameFiles final ((Pool.start [a, b] fs).run o {} schedule).files)
      ∧ ∃ e, updateFiles o 1 refusing [b, a] fs = (.error e, fs) ∧ e.isInputOutput = true := by
  intro a b fs o refusing schedule
  have hread : ∀ p ∈ [a, b], ∃ place f, fs.read p = .ok (place, f) := by
    simp only [List.mem_cons, List.not_mem_nil, or_false, forall_eq_or_imp, forall_eq]
    exact ⟨⟨_, _, rfl⟩, ⟨_, _, rfl⟩⟩
  have hdistinct : ([a, b].map fs.place).Nodup := by decide
  have hperm : [b, a].Perm [a, b] := .swap a b []
  have hmalformed : ∃ e, parse 512 (.bytes (fs.contents b)) = .error (.malformed e) := ⟨_, rfl⟩
  have hready : ∀ p ∈ [a, b], o.Ready 512 (fs.contents p) := fun _ _ => ⟨rfl, fun _ _ => by decide⟩
  have hreplace : ∃ temp temp', fs.freePlace a [Text.ofChars ['a']] temporaryNames = .ok temp
      ∧ fs.freePlace b [Text.ofChars ['b']] temporaryNames = .ok temp' := by
    obtain ⟨names, hnames⟩ := exists_temporaryNames_eq_cons
    rw [hnames]
    exact ⟨_, _, rfl, rfl⟩
  obtain ⟨temp, temp', htemp, htemp'⟩ := hreplace
  have hwork : Workable o {} [a, b] fs := by
    apply Workable.of_canReplace
    simp only [List.mem_cons, List.not_mem_nil, or_false, forall_eq_or_imp, forall_eq, CanReplace, true_and]
    exact ⟨⟨_, _, rfl, temp, htemp⟩, ⟨_, _, rfl, temp', htemp'⟩⟩
  have hnames : EvenNames ({} : Replacement).names := by
    dsimp only
    exact evenNames_temporaryNames
  obtain ⟨-, final, -, hany, hmalformed'⟩ :=
    (updateFiles_independent o {} [a, b] fs hread hdistinct).1 512 hready fun _ => hwork
  obtain ⟨e, he⟩ := hmalformed
  refine ⟨hwork, ⟨final, ?_, ?_, ?_, ?_⟩, ?_⟩
  · exact (hany [a, b] (.refl _)).1 1 (by decide)
  · exact (hany [b, a] hperm).1 4 (by decide)
  · exact (hmalformed' b (by simp) e he).2 1 (by decide)
  · exact ((hany [a, b] (.refl _)).2 hnames rfl schedule (by decide)).2
  · have hfile : fs.read b = .ok ([Text.ofChars ['b']], ⟨0o600, [0xFF]⟩) := rfl
    have hfirst : updateEach o refusing [b] fs = (.ok [o.report fs b], fs) :=
      updateEach_singleton (updateFile_of_kept (hready b (by simp)) hfile
        (.inr ((hready b (by simp)).settle_of_malformed he)))
    have hchanged : (o.outcome [0x30]).written? = some (o.settle [0x30]) :=
      UpdateOptions.written?_outcome_of_changed rfl (UpdateOptions.settle_zero_ne 512 true)
    have hrefused : ¬ CanReplace refusing a [Text.ofChars ['a']] fs := by
      intro h
      cases h.1
    obtain ⟨problem, hupdate, hkind⟩ := updateFile_of_unreplaced (f := ⟨0o644, [0x30]⟩) rfl
      (hready a (by simp)).outcomeOf_eq hchanged hrefused
    refine ⟨problem, ?_, hkind⟩
    refine ((updateFiles_independent o refusing [b, a] fs (fun p hp => hread p (hperm.mem_iff.mp hp))
      (by decide)).2 _ _).mpr ⟨[b], a, [], [o.report fs b], rfl, ?_, ?_⟩
    · rw [updateFiles_of_one_le (Int.le_refl 1), hfirst]
    · rw [hupdate]

/-- No string is as long as this indentation, so that there is no result on a file that can be read and
replaced. And there is none on a file that cannot be replaced. -/
theorem not_updateFiles_of_countTooLarge :
    let a : Path := Path.ofText (Text.ofChars ['a'])
    let fs : FileSystem := { files := [([Text.ofChars ['a']], ⟨0o644, [0x30]⟩)] }
    let wide : UpdateOptions := ⟨none, some { indent := .spaces 0x8000000000000000 }, .ok 512, true⟩
    let plain : UpdateOptions := ⟨some {}, some {}, .ok 512, true⟩
    let r : Replacement := { names := [Text.ofChars ['a']] }
    let refusing : Replacement := { names := [Text.ofChars ['a']], refused := some .rename }
    fs.read a = .ok ([Text.ofChars ['a']], ⟨0o644, [0x30]⟩)
      ∧ CanReplace r a [Text.ofChars ['a']] fs
      ∧ (∃ v, parse 512 (.bytes [0x30]) = .ok v)
      ∧ (∀ workers reports, (updateFiles wide workers r [a] fs).1 ≠ .ok reports)
      ∧ ∀ workers reports, (updateFiles plain workers refusing [a] fs).1 ≠ .ok reports := by
  intro a fs wide plain r refusing
  have hread : fs.read a = .ok ([Text.ofChars ['a']], ⟨0o644, [0x30]⟩) := rfl
  have hfails : ∀ o r e, updateFile o r a fs = (.error e, fs) →
      ∀ workers reports, (updateFiles o workers r [a] fs).1 ≠ .ok reports := by
    intro o r e hupdate workers reports
    rw [updateFiles]
    split
    · simp
    · simp [updateEach, hupdate]
  refine ⟨hread, ⟨rfl, _, rfl⟩, ⟨_, parse_zero 512⟩, ?_, ?_⟩
  · have hindent : checkIndent (.spaces 0x8000000000000000) = .error .countTooLarge :=
      checkIndent_of_index (by decide)
    exact hfails _ _ _ (updateFile_of_wide hread rfl (parse_zero 512) hindent)
  · have hready : plain.Ready 512 [0x30] := ⟨rfl, fun _ _ => by decide⟩
    have hchanged : (plain.outcome [0x30]).written? = some (plain.settle [0x30]) :=
      UpdateOptions.written?_outcome_of_changed rfl (UpdateOptions.settle_zero_ne 512 true)
    have hrefused : ¬ CanReplace refusing a [Text.ofChars ['a']] fs := by
      intro h
      cases h.1
    obtain ⟨e, hupdate, -⟩ := updateFile_of_unreplaced hread hready.outcomeOf_eq hchanged hrefused
    exact hfails _ _ _ hupdate

end CanonJson
