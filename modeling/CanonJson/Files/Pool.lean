import CanonJson.Files.Update
/-!
# A pool of threads

With more than one worker, the updates of a batch run on a pool of threads. An update is a sequence of steps, each of
which reads or changes the files once, and the threads may take the steps of different updates in any order. That
order, the course of the threads, is an argument here. The results are awaited in the order of the files: at the first
problem, updates that have begun still come to their end, and the others are cancelled.
-/

namespace CanonJson

/-! ### Stages of an update -/

/-- What a step does to the files. -/
inductive Edit where
  | keep
  | create (temp : List Text)
  | take (place temp : List Text) (new : File) (step : ReplaceStep)
  | erase (temp : List Text)

def Edit.apply (fs : FileSystem) : Edit → FileSystem
  | .keep => fs
  | .create temp => fs.setFile temp ⟨temporaryMode, []⟩
  | .take place temp new step => step.apply place temp new fs
  | .erase temp => fs.eraseFile temp

/-- How far the update of a file has come: it has not begun; its new contents are known; there is a temporary file
and steps are left to make it the file; or there is a result. -/
inductive Stage where
  | waiting
  | formatted (report : FileReport) (place : List Text) (new : File)
  | replacing (report : FileReport) (place temp : List Text) (new : File) (steps : List ReplaceStep)
  | finished (result : Except FileProblem FileReport)

namespace Stage

/-- The next step of an update, and the stage it leads to. -/
def next (o : UpdateOptions) (r : Replacement) (p : Path) (fs : FileSystem) : Stage → Stage × Edit
  | .waiting =>
    match fs.read p with
    | .error e => (.finished (.error e), .keep)
    | .ok (place, f) =>
      match outcomeOf o f.bytes with
      | .error e => (.finished (.error (.document e)), .keep)
      | .ok outcome =>
        match outcome.written? with
        | none => (.finished (.ok ⟨p.toText, outcome⟩), .keep)
        | some output => (.formatted ⟨p.toText, outcome⟩ place ⟨f.mode, output⟩, .keep)
  | .formatted report place new =>
    match fs.freePlace p place r.names with
    | .error e => (.finished (.error e), .keep)
    | .ok temp => (.replacing report place temp new ReplaceStep.all, .create temp)
  | .replacing report place temp new (step :: steps) =>
    if r.refused = some step then (.finished (.error .replaceFailed), .erase temp)
    else (.replacing report place temp new steps, .take place temp new step)
  | .replacing report _ _ _ [] => (.finished (.ok report), .keep)
  | .finished result => (.finished result, .keep)

/-- What is left of an update, if nothing else happens until it has come to its end. -/
def finish (o : UpdateOptions) (r : Replacement) (p : Path) (fs : FileSystem) :
    Stage → Except FileProblem FileReport × FileSystem
  | .waiting => updateFile o r p fs
  | .formatted report place new =>
    match replaceFile r p place new fs with
    | (.ok (), fs') => (.ok report, fs')
    | (.error e, fs') => (.error e, fs')
  | .replacing report place temp new steps =>
    match takeSteps r.refused (ReplaceStep.apply place temp new) steps fs with
    | (.ok (), fs') => (.ok report, fs')
    | (.error e, fs') => (.error e, fs'.eraseFile temp)
  | .finished result => (result, fs)

def hasBegun : Stage → Bool
  | .waiting => false
  | _ => true

end Stage

/-! ### The pool -/

/-- The updates of several files, each with the stage it is in, and the files as they are now. -/
structure Pool where
  jobs : List (Path × Stage)
  files : FileSystem

namespace Pool

def start (paths : List Path) (fs : FileSystem) : Pool :=
  ⟨paths.map fun p => (p, .waiting), fs⟩

/-- The job with the given number takes a step. -/
def turn (o : UpdateOptions) (r : Replacement) (pool : Pool) (i : Nat) : Pool :=
  match pool.jobs[i]? with
  | none => pool
  | some (p, stage) =>
    let (stage', edit) := stage.next o r p pool.files
    ⟨pool.jobs.set i (p, stage'), edit.apply pool.files⟩

/-- The jobs take steps in the given order. With fewer threads than jobs, fewer orders occur. -/
def run (o : UpdateOptions) (r : Replacement) (schedule : List Nat) (pool : Pool) : Pool :=
  schedule.foldl (turn o r) pool

end Pool

/-- The files when every job that has begun has come to its end. -/
def closeJobs (o : UpdateOptions) (r : Replacement) : List (Path × Stage) → FileSystem → FileSystem
  | [], fs => fs
  | (p, stage) :: jobs, fs =>
    closeJobs o r jobs (if stage.hasBegun then (stage.finish o r p fs).2 else fs)

/-- Waits for the results of jobs, one after the other. -/
def awaitJobs (o : UpdateOptions) (r : Replacement) :
    List (Path × Stage) → FileSystem → Except FileProblem (List FileReport) × FileSystem
  | [], fs => (.ok [], fs)
  | (p, stage) :: jobs, fs =>
    match stage.finish o r p fs with
    | (.error e, fs') => (.error e, closeJobs o r jobs fs')
    | (.ok report, fs') =>
      match awaitJobs o r jobs fs' with
      | (.ok reports, fs'') => (.ok (report :: reports), fs'')
      | (.error e, fs'') => (.error e, fs'')

/-- Brings files into canonical form while the threads take the course that is given; whatever this leaves to do is
done in the order of the files. There is no pool for one worker, nor for fewer than two files. -/
def updateFilesOn (course : List Nat) (o : UpdateOptions) (workers : Int) (r : Replacement) (paths : List Path)
    (fs : FileSystem) : Except FileProblem (List FileReport) × FileSystem :=
  if workers < 1 then (.error (.workers workers), fs)
  else if workers = 1 ∨ paths.length < 2 then updateEach o r paths fs
  else
    let pool := (Pool.start paths fs).run o r course
    awaitJobs o r pool.jobs pool.files

end CanonJson
