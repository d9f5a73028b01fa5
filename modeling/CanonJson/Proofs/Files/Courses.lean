import CanonJson.Proofs.Files.Pool
/-!
# Courses of the threads

Bringing files into canonical form one after the other is one of the courses that the threads may take
(`updateFilesOn_nil`). On files that can be read and are pairwise distinct every other course comes to the same result:
the reports of the updates alone, or the first problem in the order of the files. Only what becomes of the files behind
that problem is left to the course, and even then each is as it was or as its own update leaves it
(`updateFilesOn_agrees`). Waiting for a result is the same as giving that job its last turns, so that what is known
about turns (`Pool.Tracks`) carries over to the end of the batch.
-/

namespace CanonJson

open FileSystem

/-! ### One after the other -/

section Waiting

variable (o : UpdateOptions) (r : Replacement) (paths : List Path) (fs : FileSystem)

theorem closeJobs_waiting : closeJobs o r (paths.map fun p => (p, .waiting)) fs = fs := by
  induction paths with
  | nil => rfl
  | cons p ps ih => exact ih

theorem awaitJobs_waiting : awaitJobs o r (paths.map fun p => (p, .waiting)) fs = updateEach o r paths fs := by
  induction paths generalizing fs with
  | nil => rfl
  | cons p ps ih =>
    rw [List.map_cons, awaitJobs, Stage.finish, updateEach]
    rcases updateFile o r p fs with ⟨e | report, fs'⟩
    · simp only [closeJobs_waiting]
    · have hrest := ih fs'
      rcases hbatch : updateEach o r ps fs' with ⟨e | reports, fs''⟩
      · simp only [hrest, hbatch]
      · simp only [hrest, hbatch]

end Waiting

/-- Where no thread has done anything, the files are brought into canonical form one after the other. -/
theorem updateFilesOn_nil (o : UpdateOptions) (workers : Int) (r : Replacement) (paths : List Path)
    (fs : FileSystem) : updateFilesOn [] o workers r paths fs = updateFiles o workers r paths fs := by
  rw [updateFilesOn, updateFiles]
  split
  · rfl
  · split
    · rfl
    · exact awaitJobs_waiting o r paths fs

/-- Without a pool, nothing is done before the first result is awaited. -/
theorem exists_course {workers : Int} (hworkers : 1 ≤ workers) (course : List Nat) (o : UpdateOptions)
    (r : Replacement) (paths : List Path) (fs : FileSystem) :
    ∃ turns, updateFilesOn course o workers r paths fs
      = awaitJobs o r ((Pool.start paths fs).run o r turns).jobs ((Pool.start paths fs).run o r turns).files := by
  rw [updateFilesOn, if_neg (by omega)]
  split
  · exact ⟨[], (awaitJobs_waiting o r paths fs).symm⟩
  · exact ⟨course, rfl⟩

/-! ### Reports -/

/-- A report that has been made is on the given file. -/
def Stage.ReportsOn (p : Path) : Stage → Prop
  | .waiting | .finished (.error _) => True
  | .formatted report _ _ | .replacing report _ _ _ _ | .finished (.ok report) => report.path = p.toText

section Reports

variable {o : UpdateOptions} {r : Replacement} {p : Path} {fs fs' : FileSystem} {stage : Stage}

theorem Stage.ReportsOn.next (h : stage.ReportsOn p) : (stage.next o r p fs).1.ReportsOn p := by
  cases stage with
  | waiting =>
    rw [Stage.next]
    split
    · trivial
    · split
      · trivial
      · split
        · rfl
        · rfl
  | formatted report place new =>
    rw [Stage.next]
    split
    · trivial
    · exact h
  | replacing report place temp new steps =>
    cases steps with
    | nil => exact h
    | cons step steps =>
      rw [Stage.next]
      split
      · trivial
      · exact h
  | finished result => exact h

theorem Stage.ReportsOn.finish (h : stage.ReportsOn p) {report : FileReport}
    (hfinish : stage.finish o r p fs = (.ok report, fs')) : report.path = p.toText := by
  cases stage with
  | waiting => exact path_of_updateFile hfinish
  | formatted report' place new =>
    rw [Stage.finish] at hfinish
    split at hfinish
    · rw [← Except.ok.inj (Prod.mk.inj hfinish).1]
      exact h
    · cases hfinish
  | replacing report' place temp new steps =>
    rw [Stage.finish] at hfinish
    split at hfinish
    · rw [← Except.ok.inj (Prod.mk.inj hfinish).1]
      exact h
    · cases hfinish
  | finished result =>
    obtain rfl := (Prod.mk.inj hfinish).1
    exact h

/-- The jobs of a pool stay those of its files, and report on them. -/
structure Pool.ReportsOn (paths : List Path) (pool : Pool) : Prop where
  paths : pool.jobs.map Prod.fst = paths
  reports : ∀ job ∈ pool.jobs, job.2.ReportsOn job.1

variable {paths : List Path} {pool : Pool}

theorem Pool.reportsOn_start (paths : List Path) (fs : FileSystem) : (start paths fs).ReportsOn paths := by
  refine ⟨?_, fun job hjob => ?_⟩
  · rw [start, List.map_map]
    exact List.map_id paths
  · obtain ⟨p, -, rfl⟩ := List.mem_map.mp hjob
    trivial

theorem Pool.ReportsOn.turn (h : pool.ReportsOn paths) (i : Nat) : (pool.turn o r i).ReportsOn paths := by
  rw [Pool.turn]
  cases hjob : pool.jobs[i]? with
  | none => exact h
  | some job =>
    obtain ⟨p, stage⟩ := job
    obtain ⟨hlt, hget⟩ := List.getElem?_eq_some_iff.mp hjob
    refine ⟨?_, fun job hmem => ?_⟩
    · have hkept : pool.jobs.set i (p, stage) = pool.jobs := by
        rw [← hget, List.set_getElem_self]
      rw [← h.paths, List.map_set]
      change (pool.jobs.map Prod.fst).set i (p, stage).1 = _
      rw [← List.map_set, hkept]
    · rcases List.mem_or_eq_of_mem_set hmem with hmem | rfl
      · exact h.reports job hmem
      · exact (h.reports _ (List.mem_of_getElem? hjob)).next

theorem Pool.ReportsOn.run (h : pool.ReportsOn paths) (course : List Nat) : (pool.run o r course).ReportsOn paths := by
  induction course generalizing pool with
  | nil => exact h
  | cons i course ih => exact ih (h.turn i)

theorem paths_of_awaitJobs {jobs : List (Path × Stage)} (h : ∀ job ∈ jobs, job.2.ReportsOn job.1)
    {reports : List FileReport} (hjobs : awaitJobs o r jobs fs = (.ok reports, fs')) :
    reports.map FileReport.path = (jobs.map Prod.fst).map Path.toText := by
  induction jobs generalizing fs reports with
  | nil =>
    obtain rfl := Except.ok.inj (Prod.mk.inj hjobs).1
    rfl
  | cons job jobs ih =>
    obtain ⟨p, stage⟩ := job
    rw [awaitJobs] at hjobs
    split at hjobs
    · cases hjobs
    · rename_i report fs₁ hfinish
      split at hjobs
      · rename_i reports' fs₂ hrest
        obtain ⟨hreports, rfl⟩ := Prod.mk.inj hjobs
        obtain rfl := Except.ok.inj hreports
        rw [List.map_cons, (h _ List.mem_cons_self).finish hfinish, ih (fun job hjob => h job (.tail _ hjob)) hrest]
        rfl
      · cases hjobs

/-- The reports of a batch are on its files, in their order. -/
theorem paths_of_updateFilesOn {course : List Nat} {workers : Int} {reports : List FileReport}
    (h : updateFilesOn course o workers r paths fs = (.ok reports, fs')) :
    reports.map FileReport.path = paths.map Path.toText := by
  by_cases hworkers : workers < 1
  · rw [updateFilesOn, if_pos hworkers] at h
    cases h
  · obtain ⟨turns, hturns⟩ := exists_course (Int.not_lt.mp hworkers) course o r paths fs
    have hpool := (Pool.reportsOn_start paths fs).run (o := o) (r := r) turns
    rw [paths_of_awaitJobs hpool.reports (hturns.symm.trans h), hpool.paths]

end Reports

/-! ### Waiting as turns -/

section Turns

variable {o : UpdateOptions} {r : Replacement} {p : Path} {fs : FileSystem} {stage : Stage}

theorem Stage.hasBegun_next (stage : Stage) : (stage.next o r p fs).1.hasBegun = true := by
  unfold Stage.next
  split
  · split
    · rfl
    · split
      · rfl
      · split <;> rfl
  · split <;> rfl
  · split <;> rfl
  · rfl
  · rfl

theorem eq_zero_of_not_hasBegun {turns : Nat} (h : (alone o r p fs turns).1.hasBegun = false) : turns = 0 := by
  cases turns with
  | zero => rfl
  | succ turns =>
    rw [alone, Function.iterate_succ_apply', advance, Stage.hasBegun_next] at h
    cases h

/-- All turns of one job in a row. -/
theorem Pool.run_replicate {pool : Pool} {i : Nat} (h : pool.jobs[i]? = some (p, stage)) (turns : Nat) :
    pool.run o r (List.replicate turns i)
      = ⟨pool.jobs.set i (p, ((advance o r p)^[turns] (stage, pool.files)).1),
          ((advance o r p)^[turns] (stage, pool.files)).2⟩ := by
  induction turns generalizing pool stage with
  | zero =>
    obtain ⟨hlt, hget⟩ := List.getElem?_eq_some_iff.mp h
    rw [Function.iterate_zero_apply, ← hget, List.set_getElem_self]
    rfl
  | succ turns ih =>
    obtain ⟨hlt, -⟩ := List.getElem?_eq_some_iff.mp h
    have hturn : pool.turn o r i
        = ⟨pool.jobs.set i (p, (advance o r p (stage, pool.files)).1), (advance o r p (stage, pool.files)).2⟩ := by
      rw [Pool.turn, h]
      rfl
    rw [List.replicate_succ, Function.iterate_succ_apply]
    change Pool.run o r _ (pool.turn o r i) = _
    rw [hturn, ih (List.getElem?_set_self hlt), List.set_set]

/-- The last turns of a job. -/
theorem Pool.run_finish {front jobs : List (Path × Stage)} {files : FileSystem} {turns : Nat}
    (h : stage.left ≤ turns) :
    Pool.run o r (List.replicate turns front.length) ⟨front ++ (p, stage) :: jobs, files⟩
      = ⟨front ++ (p, .finished (stage.finish o r p files).1) :: jobs, (stage.finish o r p files).2⟩ := by
  have hjob : (front ++ (p, stage) :: jobs)[front.length]? = some (p, stage) := by simp
  rw [@Pool.run_replicate o r p stage ⟨_, files⟩ _ hjob, iterate_advance o r p files stage h]
  simp [Stage.ending]

/-- With two workers, the second file may have been updated when there turns out to be a problem with the first. -/
theorem updateFilesOn_ahead {q : Path} {fs' fs'' : FileSystem} {workers : Int} (hworkers : 1 < workers)
    {result : Except FileProblem FileReport} (hq : updateFile o r q fs = (result, fs')) {e : FileProblem}
    (hp : updateFile o r p fs' = (.error e, fs'')) :
    updateFilesOn (List.replicate maxTurns 1) o workers r [p, q] fs = (.error e, fs'') := by
  have hmany : ¬ (workers = 1 ∨ [p, q].length < 2) := by
    have hlength : [p, q].length = 2 := rfl
    omega
  have hrun : (Pool.start [p, q] fs).run o r (List.replicate maxTurns 1)
      = ⟨[(p, .waiting), (q, .finished result)], fs'⟩ := by
    have hfinish := @Pool.run_finish o r q .waiting [(p, .waiting)] [] fs maxTurns (Nat.le_refl 6)
    rw [Stage.finish, hq] at hfinish
    exact hfinish
  rw [updateFilesOn, if_neg (by omega), if_neg hmany]
  simp only [hrun]
  rw [awaitJobs, Stage.finish, hp]
  rfl

end Turns

namespace Pool

variable {o : UpdateOptions} {r : Replacement} {paths : List Path} {fs files : FileSystem} {turns : Nat → Nat}
  {front jobs : List (Path × Stage)} {p : Path} {stage : Stage}
  (hread : ∀ p ∈ paths, ∃ place f, fs.read p = .ok (place, f))
  (hdistinct : (paths.map fs.place).Nodup) (hnames : EvenNames r.names) (hroot : fs.fileAt? [] = none)

theorem Tracks.path (h : Tracks o r paths fs turns ⟨front ++ (p, stage) :: jobs, files⟩) :
    paths[front.length]? = some p ∧ stage = (alone o r p fs (turns front.length)).1 := by
  have hjob := h.jobs front.length
  simp only [List.getElem?_append_right (Nat.le_refl _), Nat.sub_self, List.getElem?_cons_zero] at hjob
  obtain ⟨q, hq, hpair⟩ := Option.map_eq_some_iff.mp hjob.symm
  obtain ⟨rfl, rfl⟩ := Prod.mk.inj hpair
  exact ⟨hq, rfl⟩

include hread hdistinct hnames hroot

/-- A job comes to the end that it comes to alone. -/
theorem Tracks.finish (h : Tracks o r paths fs turns ⟨front ++ (p, stage) :: jobs, files⟩) :
    (stage.finish o r p files).1 = (updateFile o r p fs).1
      ∧ ∃ turns', Tracks o r paths fs turns'
          ⟨front ++ (p, .finished (stage.finish o r p files).1) :: jobs, (stage.finish o r p files).2⟩
        ∧ maxTurns ≤ turns' front.length ∧ ∀ i, i ≠ front.length → turns' i = turns i := by
  have hrun := h.run hread hdistinct hnames hroot (List.replicate (maxTurns + stage.left) front.length)
  rw [run_finish (Nat.le_add_left ..)] at hrun
  have hturns : maxTurns ≤ turns front.length
      + (List.replicate (maxTurns + stage.left) front.length).count front.length := by
    rw [List.count_replicate_self]
    omega
  have hresult := hrun.path.2
  rw [alone_eq_updateFile o r p fs hturns] at hresult
  refine ⟨Stage.finished.inj hresult, _, hrun, hturns, fun i hi => ?_⟩
  rw [List.count_replicate, if_neg (by simpa using Ne.symm hi), Nat.add_zero]

/-- In the end a job has not begun or has come to its end. -/
theorem Tracks.closeJobs (h : Tracks o r paths fs turns ⟨front ++ jobs, files⟩) :
    ∃ turns' jobs', Tracks o r paths fs turns' ⟨front ++ jobs', closeJobs o r jobs files⟩
      ∧ (∀ i < front.length, turns' i = turns i)
      ∧ ∀ i, front.length ≤ i → i < front.length + jobs.length → turns' i = 0 ∨ maxTurns ≤ turns' i := by
  induction jobs generalizing front files turns with
  | nil => exact ⟨turns, [], h, fun _ _ => rfl, fun i hle hlt => absurd hlt (Nat.not_lt.mpr hle)⟩
  | cons job jobs ih =>
    obtain ⟨p, stage⟩ := job
    rw [CanonJson.closeJobs]
    -- The job itself, and then the jobs behind it, with one more in front.
    obtain ⟨turns₁, stage₁, hfirst, hsame, hended⟩ : ∃ turns₁ stage₁,
        Tracks o r paths fs turns₁ ⟨front ++ (p, stage₁) :: jobs,
          if stage.hasBegun then (stage.finish o r p files).2 else files⟩
        ∧ (∀ i, i ≠ front.length → turns₁ i = turns i)
        ∧ (turns₁ front.length = 0 ∨ maxTurns ≤ turns₁ front.length) := by
      cases hbegun : stage.hasBegun with
      | true =>
        obtain ⟨-, turns₁, htracks, hturns, hothers⟩ := h.finish hread hdistinct hnames hroot
        exact ⟨turns₁, _, htracks, hothers, .inr hturns⟩
      | false =>
        rw [h.path.2] at hbegun
        exact ⟨turns, stage, h, fun _ _ => rfl, .inl (eq_zero_of_not_hasBegun hbegun)⟩
    have hmoved : front ++ (p, stage₁) :: jobs = (front ++ [(p, stage₁)]) ++ jobs := by simp
    rw [hmoved] at hfirst
    obtain ⟨turns', jobs', hrest, hkept, hrestEnded⟩ := ih hfirst
    rw [List.length_append, List.length_singleton] at hkept hrestEnded
    refine ⟨turns', (p, stage₁) :: jobs', ?_, fun i hi => ?_, fun i hle hlt => ?_⟩
    · rwa [List.append_assoc, List.singleton_append] at hrest
    · rw [hkept i (by omega), hsame i (by omega)]
    · rcases Nat.eq_or_lt_of_le hle with rfl | hbehind
      · rwa [hkept front.length (by omega)]
      · exact hrestEnded i hbehind (by rw [List.length_cons] at hlt; omega)

/-- The results of jobs are those of the updates alone, up to the first problem. -/
theorem Tracks.awaitJobs (h : Tracks o r paths fs turns ⟨front ++ jobs, files⟩) :
    (awaitJobs o r jobs files).1 = (jobs.map Prod.fst).mapM (fun p => (updateFile o r p fs).1)
      ∧ ∃ turns' jobs', Tracks o r paths fs turns' ⟨front ++ jobs', (awaitJobs o r jobs files).2⟩
        ∧ (∀ i < front.length, turns' i = turns i)
        ∧ (∀ i, front.length ≤ i → i < front.length + jobs.length → turns' i = 0 ∨ maxTurns ≤ turns' i)
        ∧ ∀ reports, (awaitJobs o r jobs files).1 = .ok reports →
          ∀ i, front.length ≤ i → i < front.length + jobs.length → maxTurns ≤ turns' i := by
  induction jobs generalizing front files turns with
  | nil =>
    refine ⟨rfl, turns, [], h, fun _ _ => rfl, fun i hle hlt => ?_, fun _ _ i hle hlt => ?_⟩
    · exact absurd hlt (Nat.not_lt.mpr hle)
    · exact absurd hlt (Nat.not_lt.mpr hle)
  | cons job jobs ih =>
    obtain ⟨p, stage⟩ := job
    obtain ⟨hresult, turns₁, hfirst, hturns, hothers⟩ := h.finish hread hdistinct hnames hroot
    have hmoved : ∀ stage', front ++ (p, stage') :: jobs = (front ++ [(p, stage')]) ++ jobs := by simp
    rw [hmoved] at hfirst
    rw [CanonJson.awaitJobs, List.map_cons, List.mapM_cons, ← hresult]
    generalize stage.finish o r p files = ended at hfirst
    obtain ⟨result, files'⟩ := ended
    cases result with
    | error e =>
      obtain ⟨turns', jobs', hrest, hkept, hended⟩ := hfirst.closeJobs hread hdistinct hnames hroot
      rw [List.length_append, List.length_singleton] at hkept hended
      have htracks : Tracks o r paths fs turns'
          ⟨front ++ (p, .finished (.error e)) :: jobs', CanonJson.closeJobs o r jobs files'⟩ := by
        rwa [List.append_assoc, List.singleton_append] at hrest
      refine ⟨rfl, turns', _, htracks, fun i hi => ?_, fun i hle hlt => ?_, fun _ hok => by cases hok⟩
      · rw [hkept i (by omega), hothers i (by omega)]
      · rcases Nat.eq_or_lt_of_le hle with rfl | hbehind
        · right
          rwa [hkept front.length (by omega)]
        · exact hended i hbehind (by rw [List.length_cons] at hlt; omega)
    | ok report =>
      obtain ⟨hreports, turns', jobs', hrest, hkept, hended, hall⟩ := ih hfirst
      rw [List.length_append, List.length_singleton] at hkept hended hall
      have hself : maxTurns ≤ turns' front.length := by
        rwa [hkept front.length (by omega)]
      rw [← hreports]
      simp only
      generalize CanonJson.awaitJobs o r jobs files' = awaited at hrest hall
      obtain ⟨results, final⟩ := awaited
      have hlater : ∀ i, front.length ≤ i → i < front.length + ((p, stage) :: jobs).length →
          i = front.length ∨ front.length + 1 ≤ i ∧ i < front.length + 1 + jobs.length := by
        intro i hle hlt
        rw [List.length_cons] at hlt
        omega
      have htracks : Tracks o r paths fs turns' ⟨front ++ (p, .finished (.ok report)) :: jobs', final⟩ := by
        rwa [List.append_assoc, List.singleton_append] at hrest
      have hsame : ∀ i < front.length, turns' i = turns i := by
        intro i hi
        rw [hkept i (by omega), hothers i (by omega)]
      have heach : ∀ i, front.length ≤ i → i < front.length + ((p, stage) :: jobs).length →
          turns' i = 0 ∨ maxTurns ≤ turns' i := by
        intro i hle hlt
        rcases hlater i hle hlt with rfl | ⟨hle', hlt'⟩
        · exact .inr hself
        · exact hended i hle' hlt'
      cases results with
      | error e => exact ⟨rfl, turns', _, htracks, hsame, heach, fun _ hok => by cases hok⟩
      | ok reports =>
        refine ⟨rfl, turns', _, htracks, hsame, heach, fun _ _ i hle hlt => ?_⟩
        rcases hlater i hle hlt with rfl | ⟨hle', hlt'⟩
        · exact hself
        · exact hall reports rfl i hle' hlt'

end Pool

/-! ### Batches -/

/-- Every file of a batch is as it was or as its own update leaves it, and nothing else has changed. -/
structure EachSettled (o : UpdateOptions) (r : Replacement) (paths : List Path) (fs fs' : FileSystem) : Prop where
  home : fs'.home = fs.home
  directories : fs'.directories = fs.directories
  settled : ∀ p ∈ paths, fs'.fileAt? (fs.place p) = fs.fileAt? (fs.place p)
    ∨ fs'.fileAt? (fs.place p) = (updateFile o r p fs).2.fileAt? (fs.place p)
  others : ∀ q, q ∉ paths.map fs.place → fs'.fileAt? q = fs.fileAt? q

section Batches

variable {o : UpdateOptions} {r : Replacement} {paths : List Path} {fs : FileSystem}

/-- Where each job has not begun or has come to its end, no temporary file is left. -/
theorem Pool.Tracks.eachSettled {turns : Nat → Nat} {pool : Pool} (h : pool.Tracks o r paths fs turns)
    (hread : ∀ p ∈ paths, ∃ place f, fs.read p = .ok (place, f))
    (hended : ∀ i < paths.length, turns i = 0 ∨ maxTurns ≤ turns i) : EachSettled o r paths fs pool.files where
  home := h.grown.home
  directories := h.grown.directories
  settled p hp := by
    obtain ⟨i, hi⟩ := List.mem_iff_getElem?.mp hp
    rw [h.owned i p hi _ (.inl rfl)]
    rcases hended i (List.getElem?_eq_some_iff.mp hi).1 with hnone | hall
    · left
      rw [hnone]
      rfl
    · right
      rw [alone_eq_updateFile o r p fs hall]
  others q hq := by
    by_cases howned : ∃ p ∈ paths, Owns r fs p q
    · obtain ⟨p, hp, howns⟩ := howned
      obtain ⟨i, hi⟩ := List.mem_iff_getElem?.mp hp
      obtain ⟨place, f, hfile⟩ := hread p hp
      obtain ⟨rfl, -⟩ := place_of_read hfile
      have hne : q ≠ fs.place p := fun heq => hq (heq ▸ List.mem_map_of_mem hp)
      rw [h.owned i p hi q howns]
      rcases hended i (List.getElem?_eq_some_iff.mp hi).1 with hnone | hall
      · rw [hnone]
        rfl
      · rw [alone_eq_updateFile o r p fs hall]
        exact fileAt?_snd_updateFile_of_ne hfile hne
    · exact h.others q fun p hp howns => howned ⟨p, hp, howns⟩

/-- The course of the threads shows in nothing but the files behind a problem: the result of a batch of distinct files
that can be read is the same in every course, and each file ends as it was or as its own update leaves it, the latter
if there is no problem. -/
theorem updateFilesOn_agrees (course : List Nat) (workers : Int)
    (hread : ∀ p ∈ paths, ∃ place f, fs.read p = .ok (place, f)) (hdistinct : (paths.map fs.place).Nodup)
    (hnames : EvenNames r.names) (hroot : fs.fileAt? [] = none) :
    (updateFilesOn course o workers r paths fs).1 = (updateFiles o workers r paths fs).1
      ∧ EachSettled o r paths fs (updateFilesOn course o workers r paths fs).2
      ∧ ∀ reports, (updateFilesOn course o workers r paths fs).1 = .ok reports →
        EachUpdated o r paths fs (updateFilesOn course o workers r paths fs).2 := by
  by_cases hworkers : workers < 1
  · rw [updateFilesOn, updateFiles, if_pos hworkers, if_pos hworkers]
    exact ⟨rfl, ⟨rfl, rfl, fun _ _ => .inl rfl, fun _ _ => rfl⟩, fun _ hok => by cases hok⟩
  · have hevery : ∀ course, (updateFilesOn course o workers r paths fs).1
          = paths.mapM (fun p => (updateFile o r p fs).1)
        ∧ ∃ turns pool, Pool.Tracks o r paths fs turns pool
          ∧ pool.files = (updateFilesOn course o workers r paths fs).2
          ∧ (∀ i < paths.length, turns i = 0 ∨ maxTurns ≤ turns i)
          ∧ ∀ reports, (updateFilesOn course o workers r paths fs).1 = .ok reports →
            ∀ i < paths.length, maxTurns ≤ turns i := by
      intro course
      obtain ⟨schedule, hschedule⟩ := exists_course (Int.not_lt.mp hworkers) course o r paths fs
      have hpool := (Pool.reportsOn_start paths fs).run (o := o) (r := r) schedule
      have htracks := Pool.tracks_start.run (o := o) hread hdistinct hnames hroot schedule
      generalize (Pool.start paths fs).run o r schedule = pool at hschedule hpool htracks
      obtain ⟨jobs, files⟩ := pool
      have hlength : jobs.length = paths.length := by
        rw [← hpool.paths, List.length_map]
      have hwhole : Pool.Tracks o r paths fs _ ⟨[] ++ jobs, files⟩ := htracks
      obtain ⟨hresult, turns, jobs', hfinal, -, hended, hall⟩ := hwhole.awaitJobs hread hdistinct hnames hroot
      rw [List.length_nil, Nat.zero_add, hlength] at hended hall
      rw [hschedule]
      exact ⟨hresult.trans (by rw [hpool.paths]), turns, _, hfinal, rfl,
        fun i => hended i (Nat.zero_le i), fun reports hok i => hall reports hok i (Nat.zero_le i)⟩
    obtain ⟨hresult, turns, pool, htracks, hfiles, hended, hall⟩ := hevery course
    refine ⟨?_, ?_, fun reports hok => ?_⟩
    · rw [hresult, ← updateFilesOn_nil, (hevery []).1]
    · rw [← hfiles]
      exact htracks.eachSettled hread hended
    · have hturns := hall reports hok
      have hsettled := htracks.eachSettled hread hended
      rw [← hfiles]
      refine ⟨hsettled.home, hsettled.directories, fun p hp => ?_, hsettled.others⟩
      obtain ⟨i, hi⟩ := List.mem_iff_getElem?.mp hp
      rw [htracks.owned i p hi _ (.inl rfl),
        alone_eq_updateFile o r p fs (hturns i (List.getElem?_eq_some_iff.mp hi).1)]

end Batches

end CanonJson
