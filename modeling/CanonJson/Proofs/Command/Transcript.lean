import CanonJson.Proofs.Command.Choices
import CanonJson.Proofs.Files.Batch
/-!
# What a run prints

A run on files prints for each report in turn, and ends with the summary of a check. As long as everything can
be encoded, the transcript is the concatenation of what is printed for each report, and the run fails if it
fails for one of them.
-/

namespace CanonJson.Command

theorem surrogateFree_ofString (s : String) : (Text.ofString s).SurrogateFree :=
  Text.surrogateFree_ofChars s.toList

theorem printAll_of_surrogateFree {ps : List Printed} (h : ∀ p ∈ ps, p.stdout.SurrogateFree) :
    printAll ps
      = { stdout := octets (ps.flatMap Printed.stdout)
          stderr := ps.flatMap Printed.stderr
          failed := ps.any Printed.failed } := by
  induction ps with
  | nil => rfl
  | cons p ps ih =>
    rw [printAll, Utf8.encode_eq_ok (h p (by simp)), ih fun q hq => h q (by simp [hq])]
    simp [octets]

theorem exists_encode_error {t : Text} (h : ∃ c ∈ t, c.isSurrogate = true) :
    ∃ e, Utf8.encode t = .error e := by
  obtain ⟨c, hc, hsurrogate⟩ := h
  rw [Utf8.encode]
  split
  · rename_i hnone
    rw [List.findIdx?_eq_none_iff] at hnone
    rw [hnone c hc] at hsurrogate
    cases hsurrogate
  · exact ⟨_, rfl⟩

theorem surrogateFree_countLine (changed total : Nat) : (countLine changed total).SurrogateFree := by
  simp only [countLine, Text.surrogateFree_append]
  exact ⟨⟨⟨surrogateFree_ofString _, surrogateFree_ofString _⟩, surrogateFree_ofString _⟩,
    surrogateFree_ofString _⟩

theorem surrogateFree_summary (p : Plan) (reports : List FileReport) : (summary p reports).SurrogateFree := by
  unfold summary
  split
  · exact surrogateFree_countLine _ _
  · exact Text.surrogateFree_nil

theorem surrogateFree_reformatLine {source : Text} (h : source.SurrogateFree) :
    (reformatLine source).SurrogateFree := by
  simp only [reformatLine, Text.surrogateFree_append]
  exact ⟨⟨surrogateFree_ofString _, h⟩, surrogateFree_ofString _⟩

/-- What is printed for the elements that are picked out is printed for all, nothing for the others. -/
theorem flatMap_filter {α : Type} (l : List α) (pick : α → Bool) (line : α → Text) :
    (l.filter pick).flatMap line = l.flatMap fun a => if pick a then line a else [] := by
  induction l with
  | nil => rfl
  | cons a l ih =>
    rw [List.flatMap_cons, List.filter_cons, ← ih]
    split <;> simp [List.flatMap_cons]

/-! ### Runs -/

/-- The options of a plan can be used as soon as its indentation can be made. -/
theorem ready_of_fits {p : Plan} (hindent : p.layout.indent.Fits) (bs : Bytes) : p.options.Ready p.limit bs :=
  ⟨rfl, fun _ _ => hindent⟩

theorem ready_of_exists {p : Plan} {files : List Text} {fs : FileSystem}
    (hindent : (∃ name ∈ files, ∃ v, parse p.limit (.bytes (fs.contents (Path.ofText name))) = .ok v) →
      p.layout.indent.Fits) :
    ∀ q ∈ files.map Path.ofText, p.options.Ready p.limit (fs.contents q) := by
  intro q hq
  obtain ⟨name, hname, rfl⟩ := List.mem_map.mp hq
  exact ⟨rfl, fun v hv => hindent ⟨name, hname, v, hv⟩⟩

section Runs

variable {s : Surroundings} {args : List Text} {f : Flags} {p : Plan} {stdin : Bytes} {fs : FileSystem}

theorem run_stdin (hargs : readArguments args = .ok (.format f [])) (hplan : f.plan = .ok p) :
    run s args stdin fs
      = { runStdin s p stdin fs with stderr := Text.spellSurrogates (runStdin s p stdin fs).stderr } := by
  have htask : taskOf args = .ok (.format p []) := by
    rw [taskOf, hargs]
    simp only [hplan]
    rfl
  rw [run, runWith, htask]
  rfl

theorem run_files {files : List Text} (hargs : readArguments args = .ok (.format f files))
    (hplan : f.plan = .ok p) (hfiles : files ≠ []) :
    run s args stdin fs
      = { runFiles s p (files.map Path.ofText) fs with
          stderr := Text.spellSurrogates (runFiles s p (files.map Path.ofText) fs).stderr } := by
  have htask : taskOf args = .ok (.format p files) := by
    rw [taskOf, hargs]
    simp only [hplan]
    rfl
  rw [run, runWith, htask]
  cases files with
  | nil => exact absurd rfl hfiles
  | cons name names => rfl

/-- How a run ends that is refused. -/
def Refusal.exit : Refusal → Exit
  | .usage _ => .code 2
  | .problem p => .failed (.document p)

theorem exit_of_refusal {files : List Text} {e : Refusal} (hargs : readArguments args = .ok (.format f files))
    (hplan : f.plan = .error e) : (run s args stdin fs).exit = e.exit := by
  have htask : taskOf args = .error e := by
    rw [taskOf, hargs]
    simp only [hplan]
    rfl
  rw [run, runWith, htask]
  cases e <;> rfl

/-- Choices that lead to no plan end every run in the same way. -/
theorem exit_of_no_plan {args' : List Text} {files files' : List Text} {stdin' : Bytes} {e : Refusal}
    (hargs : readArguments args = .ok (.format f files))
    (hargs' : readArguments args' = .ok (.format f files')) (hplan : f.plan = .error e) :
    (run s args stdin fs).exit = (run s args' stdin' fs).exit := by
  rw [exit_of_refusal hargs hplan, exit_of_refusal hargs' hplan]

theorem runFiles_of_error {paths : List Path} {fs' : FileSystem} {e : FileProblem} (hjobs : 1 ≤ p.jobs)
    (h : updateEach p.options s.replacement paths fs = (.error e, fs')) :
    runFiles s p paths fs = { exit := .failed e, files := fs' } := by
  rw [runFiles, updateFiles, if_neg (by omega), h, reportBatch]

theorem runFiles_of_reports {paths : List Path} {fs' : FileSystem} {reports : List FileReport}
    (hjobs : 1 ≤ p.jobs) (h : updateEach p.options s.replacement paths fs = (.ok reports, fs'))
    (hprint : ∀ r ∈ reports, (printReport s p r).stdout.SurrogateFree) :
    runFiles s p paths fs
      = { exit := .code (if reports.any (fun r => (printReport s p r).failed) then 1 else 0)
          stdout := octets (reports.flatMap (fun r => (printReport s p r).stdout) ++ summary p reports)
          stderr := reports.flatMap (fun r => (printReport s p r).stderr)
          files := fs' } := by
  have hall : ∀ x ∈ reports.map (printReport s p) ++ [{ stdout := summary p reports }],
      x.stdout.SurrogateFree := by
    intro x hx
    rcases List.mem_append.mp hx with hx | hx
    · obtain ⟨r, hr, rfl⟩ := List.mem_map.mp hx
      exact hprint r hr
    · rw [List.mem_singleton.mp hx]
      exact surrogateFree_summary p reports
  rw [runFiles, updateFiles, if_neg (by omega), h, reportBatch]
  simp only [printAll_of_surrogateFree hall]
  simp [List.flatMap_append, List.flatMap_map, Function.comp_def]

/-- A problem with the only file ends the run. -/
theorem run_file_of_error {name : Text} {fs' : FileSystem} {e : FileProblem}
    (hargs : readArguments args = .ok (.format f [name])) (hplan : f.plan = .ok p)
    (h : updateFile p.options s.replacement (Path.ofText name) fs = (.error e, fs')) :
    (run s args stdin fs).exit = .failed e ∧ (run s args stdin fs).files = fs' := by
  have hbatch : updateEach p.options s.replacement [Path.ofText name] fs = (.error e, fs') := by
    rw [updateEach, h]
  rw [run_files hargs hplan (by simp), List.map_singleton, runFiles_of_error (planned_of_plan hplan).jobs hbatch]
  exact ⟨rfl, rfl⟩

section OneFile

variable {name : Text} {place : List Text} {file : File} (hargs : readArguments args = .ok (.format f [name]))
  (hplan : f.plan = .ok p) (hread : fs.read (Path.ofText name) = .ok (place, file))

include hargs hplan hread

theorem run_file_of_wide {v : Value} (hparse : parse p.limit (.bytes file.bytes) = .ok v) {q : Problem}
    (hindent : checkIndent p.layout.indent = .error q) :
    (run s args stdin fs).exit = .failed (.document q) ∧ (run s args stdin fs).files = fs :=
  run_file_of_error hargs hplan (updateFile_of_wide hread rfl hparse hindent)

theorem run_file_of_refused (hcheck : f.check = false) (hdigest : f.digest = false)
    (hindent : p.layout.indent.Fits) (hchanged : p.options.settle file.bytes ≠ file.bytes)
    (hrefused : ¬ CanReplace s.replacement (Path.ofText name) place fs) :
    ∃ e, e.isInputOutput = true ∧ (run s args stdin fs).exit = .failed e ∧ (run s args stdin fs).files = fs := by
  have hplanned := planned_of_plan hplan
  have hwrite : p.options.write = true := by
    simp [Plan.options, hplanned.check, hplanned.digest, hcheck, hdigest]
  obtain ⟨e, hstopped, he⟩ := updateFile_of_unreplaced hread (ready_of_fits hindent file.bytes).outcomeOf_eq
    (UpdateOptions.written?_outcome_of_changed hwrite hchanged) hrefused
  exact ⟨e, he, run_file_of_error hargs hplan hstopped⟩

end OneFile

/-- A line that cannot be encoded ends the run as well. -/
theorem run_file_of_unencodable {name : Text} {fs' : FileSystem} {report : FileReport}
    (hargs : readArguments args = .ok (.format f [name])) (hplan : f.plan = .ok p)
    (h : updateFile p.options s.replacement (Path.ofText name) fs = (.ok report, fs'))
    (hline : ∃ c ∈ (printReport s p report).stdout, c.isSurrogate = true) :
    ∃ e, (run s args stdin fs).exit = .failed (.document (.unencodable e)) := by
  have hjobs := (planned_of_plan hplan).jobs
  obtain ⟨e, he⟩ := exists_encode_error hline
  refine ⟨e, ?_⟩
  rw [run_files hargs hplan (by simp), List.map_singleton, runFiles, updateFiles, if_neg (by omega),
    updateEach_singleton h, reportBatch]
  simp only [List.map_singleton, List.singleton_append, printAll, he]

end Runs

/-! ### Reports -/

section Reports

variable (s : Surroundings) {p : Plan} (r : FileReport)

/-- Without check and digest only a malformed document fails, and nothing goes to the output. -/
theorem printReport_plain (hcheck : p.check = false) (hdigest : p.digest = false) :
    (printReport s p r).failed = r.fault?.isSome ∧ (printReport s p r).stdout = [] := by
  rw [printReport, FileReport.fault?]
  cases r.outcome with
  | malformed e => exact ⟨rfl, rfl⟩
  | formatted output digest changed written =>
    simp only [hcheck, hdigest]
    cases written <;> exact ⟨rfl, rfl⟩

/-- A check fails for a malformed document and for one that is not in canonical form, and names the latter. -/
theorem printReport_check (hcheck : p.check = true) (hdigest : p.digest = false) :
    (printReport s p r).failed = (r.fault?.isSome || r.isChanged)
      ∧ (printReport s p r).stdout
        = if r.isChanged && !p.quiet then reformatLine r.path else [] := by
  rw [printReport, FileReport.fault?, FileReport.isChanged]
  cases r.outcome with
  | malformed e => exact ⟨rfl, rfl⟩
  | formatted output digest changed written =>
    simp only [hcheck, hdigest]
    cases changed <;> cases written <;> cases p.quiet <;> exact ⟨rfl, rfl⟩

/-- With a digest, nothing else is printed for a document that could be read. -/
theorem printReport_digest (hdigest : p.digest = true) {output : Bytes} {digest : Text} {changed written : Bool}
    (h : r.outcome = .formatted output digest changed written) :
    printReport s p r = { stdout := digest ++ "  " ++ r.path ++ "\n" } := by
  rw [printReport, h]
  exact if_pos hdigest

end Reports

/-! ### Plain runs and checks -/

/-- How a run ends that has found the given faults. -/
def exitCode (faults : List (Option ParseError)) : Nat :=
  if faults.any Option.isSome then 1 else 0

theorem exitCode_cases (faults : List (Option ParseError)) : exitCode faults = 0 ∨ exitCode faults = 1 := by
  unfold exitCode
  split
  · exact .inr rfl
  · exact .inl rfl

theorem exitCode_eq_zero_iff {faults : List (Option ParseError)} :
    exitCode faults = 0 ↔ ∀ x ∈ faults, x = none := by
  simp [exitCode]

section Batches

variable {s : Surroundings} {p : Plan} {paths : List Path} {fs : FileSystem} (hdigest : p.digest = false)
  (hjobs : 1 ≤ p.jobs)

include hdigest hjobs

/-- A plain run fails exactly if one of the documents is malformed. -/
theorem runFiles_plain (hcheck : p.check = false) {reports : List FileReport} {fs' : FileSystem}
    (h : updateEach p.options s.replacement paths fs = (.ok reports, fs')) :
    (runFiles s p paths fs).exit = .code (exitCode (reports.map FileReport.fault?))
      ∧ (runFiles s p paths fs).files = fs' := by
  have hprinted := fun r => printReport_plain s r hcheck hdigest
  have hprint : ∀ r ∈ reports, (printReport s p r).stdout.SurrogateFree := by
    intro r _
    rw [(hprinted r).2]
    exact Text.surrogateFree_nil
  rw [runFiles_of_reports hjobs h hprint]
  simp only [exitCode, hprinted, List.any_map, Function.comp_def, and_self]

/-- A check changes nothing, names the files that are not in canonical form and counts them, and fails if there
is one or if a document is malformed. -/
theorem runFiles_check {limit : Nat} (ho : ∀ q ∈ paths, p.options.Ready limit (fs.contents q))
    (hcheck : p.check = true)
    (hread : ∀ q ∈ paths, ∃ place f, fs.read q = .ok (place, f))
    (hprint : p.quiet = false → ∀ q ∈ paths, p.options.changes fs q = true → q.toText.SurrogateFree) :
    runFiles s p paths fs
      = { exit := .code (if paths.any (fun q => (p.options.fault? (fs.contents q)).isSome
            || p.options.changes fs q) then 1 else 0)
          stdout := octets (if p.quiet then [] else
            (paths.filter (p.options.changes fs)).flatMap (fun q => reformatLine q.toText)
              ++ countLine (paths.countP (p.options.changes fs)) paths.length)
          stderr := paths.flatMap (fun q => (printReport s p (p.options.report fs q)).stderr)
          files := fs } := by
  have hwrite : p.options.write = false := by simp [Plan.options, hcheck]
  have hbatch := updateEach_of_kept ho s.replacement hread (.inl hwrite)
  have hprinted := fun r => printReport_check s r hcheck hdigest
  have hstdout : ∀ r ∈ paths.map (p.options.report fs), (printReport s p r).stdout.SurrogateFree := by
    intro r hr
    obtain ⟨q, hq, rfl⟩ := List.mem_map.mp hr
    rw [(hprinted _).2, isChanged_report]
    split
    · rename_i hloud
      simp only [Bool.and_eq_true, Bool.not_eq_true'] at hloud
      exact surrogateFree_reformatLine (hprint hloud.2 q hq hloud.1)
    · exact Text.surrogateFree_nil
  have hlines : (paths.map (p.options.report fs)).flatMap (fun r => (printReport s p r).stdout)
        ++ summary p (paths.map (p.options.report fs))
      = if p.quiet then [] else
          (paths.filter (p.options.changes fs)).flatMap (fun q => reformatLine q.toText)
            ++ countLine (paths.countP (p.options.changes fs)) paths.length := by
    simp only [hprinted, summary, hcheck, List.flatMap_map, List.countP_map, Function.comp_def,
      isChanged_report, List.length_map]
    cases p.quiet with
    | true => simp
    | false =>
      rw [if_neg Bool.false_ne_true, flatMap_filter]
      simp only [Bool.not_false, Bool.and_true, if_true]
      rfl
  rw [runFiles_of_reports hjobs hbatch hstdout, hlines]
  simp only [hprinted, List.any_map, List.flatMap_map, Function.comp_def, isChanged_report, fault?_report]

end Batches

/-! ### Command lines -/

section CommandLines

variable {s : Surroundings} {args files : List Text} {stdin : Bytes} {fs : FileSystem} {f : Flags} {p : Plan}
  (hargs : readArguments args = .ok (.format f files)) (hplan : f.plan = .ok p) (hfiles : files ≠ [])
  (hdigest : f.digest = false)
  (hready : ∀ q ∈ files.map Path.ofText, p.options.Ready p.limit (fs.contents q))

include hargs hplan hfiles hdigest hready

/-- A run that can be carried out settles its files. -/
theorem run_plain (hcheck : f.check = false)
    (hwork : Workable p.options s.replacement (files.map Path.ofText) fs)
    (honce : ((files.map Path.ofText).map fs.place).Nodup ∨ p.options.Stable) :
    (run s args stdin fs).exit
        = .code (exitCode ((files.map Path.ofText).map fun q => p.options.fault? (fs.contents q)))
      ∧ Settles p.options ((files.map Path.ofText).map fs.place) fs (run s args stdin fs).files := by
  have hplanned := planned_of_plan hplan
  have hwrite : p.options.write = true := by
    simp [Plan.options, hplanned.check, hplanned.digest, hcheck, hdigest]
  obtain ⟨reports, fs', hbatch, hsettles, hfaults⟩ :=
    updateEach_settles hwrite hready hwork honce
  obtain ⟨hexit, hfs'⟩ := runFiles_plain (hplanned.digest.trans hdigest) hplanned.jobs
    (hplanned.check.trans hcheck) hbatch
  rw [run_files hargs hplan hfiles, ← hfaults]
  refine ⟨hexit, ?_⟩
  rw [← hfs'] at hsettles
  exact hsettles

/-- The same command line behind `--check`. -/
theorem run_check (hread : ∀ q ∈ files.map Path.ofText, ∃ place f, fs.read q = .ok (place, f))
    (hprint : p.quiet = false → ∀ q ∈ files.map Path.ofText, p.options.changes fs q = true →
      q.toText.SurrogateFree) :
    run s (Text.ofString "--check" :: args) stdin fs
      = { exit := .code (if (files.map Path.ofText).any (fun q =>
            (p.options.fault? (fs.contents q)).isSome || p.options.changes fs q) then 1 else 0)
          stdout := octets (if p.quiet then [] else
            ((files.map Path.ofText).filter (p.options.changes fs)).flatMap (fun q => reformatLine q.toText)
              ++ countLine ((files.map Path.ofText).countP (p.options.changes fs)) files.length)
          stderr := Text.spellSurrogates ((files.map Path.ofText).flatMap fun q =>
            (printReport s { p with check := true }
              (Plan.options { p with check := true } |>.report fs q)).stderr)
          files := fs } := by
  have hplanned := planned_of_plan hplan
  have hargs' : readArguments (Text.ofString "--check" :: args) = .ok (.format f.checked files) := by
    rw [readArguments_check, hargs]
    rfl
  have hdigest' : Plan.digest { p with check := true } = false := hplanned.digest.trans hdigest
  have hready' : ∀ q ∈ files.map Path.ofText,
      (Plan.options { p with check := true }).Ready p.limit (fs.contents q) := by
    intro q hq
    exact ⟨rfl, (hready q hq).indent⟩
  have hlength : (files.map Path.ofText).length = files.length := List.length_map ..
  rw [run_files hargs' (plan_checked hplan) hfiles, runFiles_check hdigest' hplanned.jobs hready' rfl hread hprint,
    hlength]
  rfl

end CommandLines

end CanonJson.Command
