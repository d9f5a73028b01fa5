import CanonJson.Proofs.Command.Transcript
import CanonJson.Proofs.Files.Courses
/-!
# Runs on several threads

A run that brings files into canonical form one after the other is a run in one of the courses of the threads. On
distinct files that can be read, every other course gives the same exit and prints the same, and so what is said about
runs one after the other holds for them as well. Only which of the files behind a problem have been rewritten may
differ.
-/

namespace CanonJson.Command

variable {s : Surroundings} {args : List Text} {stdin : Bytes} {fs : FileSystem}

theorem runFilesOn_nil (s : Surroundings) : runFilesOn [] s = runFiles s := by
  funext p paths fs
  rw [runFilesOn, updateFilesOn_nil, runFiles]

theorem runOn_nil (s : Surroundings) (args : List Text) (stdin : Bytes) (fs : FileSystem) :
    runOn [] s args stdin fs = run s args stdin fs := by
  rw [runOn, runFilesOn_nil, run]

section Batches

variable (s : Surroundings) (p : Plan) {batch batch' : Except FileProblem (List FileReport) × FileSystem}

theorem files_reportBatch (batch : Except FileProblem (List FileReport) × FileSystem) :
    (reportBatch s p batch).files = batch.2 := by
  obtain ⟨_ | _, _⟩ := batch <;> rfl

/-- What is shown of a batch depends on its result alone. -/
theorem reportBatch_congr (h : batch.1 = batch'.1) :
    (reportBatch s p batch).exit = (reportBatch s p batch').exit
      ∧ (reportBatch s p batch).stdout = (reportBatch s p batch').stdout
      ∧ (reportBatch s p batch).stderr = (reportBatch s p batch').stderr := by
  obtain ⟨result, fs⟩ := batch
  obtain ⟨result', fs'⟩ := batch'
  obtain rfl : result = result' := h
  cases result <;> exact ⟨rfl, rfl, rfl⟩

end Batches

theorem files_runOn (course : List Nat) {p : Plan} {name : Text} {names : List Text}
    (htask : taskOf args = .ok (.format p (name :: names))) :
    (runOn course s args stdin fs).files
      = (updateFilesOn course p.options p.jobs s.replacement ((name :: names).map Path.ofText) fs).2 := by
  rw [runOn, runWith, htask]
  exact files_reportBatch s p _

/-- In every course of the threads, a run on distinct files that can be read ends alike and prints the same, and each
file is as it was or as its own update leaves it. -/
theorem runOn_agrees (course : List Nat) {f : Flags} {files : List Text} {p : Plan}
    (hargs : readArguments args = .ok (.format f files)) (hplan : f.plan = .ok p)
    (hread : ∀ name ∈ files, ∃ place file, fs.read (Path.ofText name) = .ok (place, file))
    (hdistinct : ((files.map Path.ofText).map fs.place).Nodup) (hnames : EvenNames s.replacement.names)
    (hroot : fs.fileAt? [] = none) :
    (runOn course s args stdin fs).exit = (run s args stdin fs).exit
      ∧ (runOn course s args stdin fs).stdout = (run s args stdin fs).stdout
      ∧ (runOn course s args stdin fs).stderr = (run s args stdin fs).stderr
      ∧ EachSettled p.options s.replacement (files.map Path.ofText) fs (runOn course s args stdin fs).files := by
  have htask : taskOf args = .ok (.format p files) := by
    rw [taskOf, hargs]
    simp only [hplan]
    rfl
  cases files with
  | nil =>
    have hfiles : (runStdin s p stdin fs).files = fs := by
      unfold runStdin
      split
      · rfl
      · rfl
      · split <;> rfl
    have hrun : runOn course s args stdin fs = run s args stdin fs := by
      rw [runOn, run, runWith, runWith, htask]
      rfl
    rw [hrun]
    refine ⟨rfl, rfl, rfl, ?_⟩
    rw [run_stdin hargs hplan, hfiles]
    exact ⟨rfl, rfl, fun _ _ => .inl rfl, fun _ _ => rfl⟩
  | cons name names =>
    have hread' : ∀ q ∈ (name :: names).map Path.ofText, ∃ place file, fs.read q = .ok (place, file) := by
      intro q hq
      obtain ⟨name', hname', rfl⟩ := List.mem_map.mp hq
      exact hread name' hname'
    obtain ⟨hresult, hsettled, -⟩ := @updateFilesOn_agrees p.options s.replacement
      ((name :: names).map Path.ofText) fs course p.jobs hread' hdistinct hnames hroot
    obtain ⟨hexit, hstdout, hstderr⟩ := reportBatch_congr s p hresult
    rw [runOn, run, runWith, runWith, htask]
    refine ⟨hexit, hstdout, congrArg Text.spellSurrogates hstderr, ?_⟩
    change EachSettled _ _ _ _ (reportBatch s p _).files
    rw [files_reportBatch]
    exact hsettled

end CanonJson.Command
