import CanonJson.Command.Help
import CanonJson.Command.Log
import CanonJson.Command.Plan
import CanonJson.Files.Pool
/-!
# Running a command line

A run is a function of the arguments, the standard input and the file system; it gives an exit, what
is printed, and the file system afterwards. Without files it formats the standard input.
-/

namespace CanonJson.Command

/-- What a run finds around it: the text that shows how the program is called, the way log records are
spelled, and how replacing a file goes. -/
structure Surroundings where
  usage : Text := usageText
  rendering : Rendering := .standard []
  replacement : Replacement := {}

inductive Exit where
  | code (n : Nat)
  | failed (p : FileProblem)

structure Outcome where
  exit : Exit
  stdout : Bytes := []
  stderr : Text := []
  files : FileSystem

def octets (t : Text) : Bytes :=
  t.flatMap Utf8.encodePoint

/-- The line of a log record, if records are shown. -/
def logLine (s : Surroundings) (p : Plan) (r : LogRecord) : Text :=
  if p.verbose then (if p.logJson then s.rendering.json r else s.rendering.plain r) else []

def faultLine (source : Text) (e : ParseError) : Text :=
  source ++ ":" ++ Text.ofNat e.line ++ ":" ++ Text.ofNat e.column ++ ": " ++ e.fault.message ++ "\n"

/-- The line on a document that is not in canonical form. -/
def reformatLine (source : Text) : Text :=
  "would reformat " ++ source ++ "\n"

/-- The line that ends a check: how many files would be rewritten, out of how many. -/
def countLine (changed total : Nat) : Text :=
  Text.ofNat changed ++ " of " ++ Text.ofNat total ++ " file(s) would be reformatted\n"

/-- The record on a malformed document, whose name is in the given field. -/
def faultRecord (field : String) (source : Text) (e : ParseError) : LogRecord :=
  ⟨.debug, "parse_failed",
    [("code", .text e.fault.code.name), ("column", .number e.column), ("line", .number e.line),
      (field, .text source)]⟩

def stdinName : Text := "<stdin>"

/-! ### Standard input -/

/-- What a formatted standard input leads to: a digest, a verdict, or the output. -/
def formatStdin (p : Plan) (data : Bytes) (v : Value) : Except Problem (Nat × Bytes) := do
  let canonical ← canonicalize p.order v
  if p.digest then
    return (0, octets ((← digestValue (some p.order) (some p.layout) canonical) ++ "\n"))
  let output ← renderBytes p.layout canonical
  if p.check then
    if output != data then
      return (1, if p.quiet then [] else octets (reformatLine stdinName))
    return (0, [])
  return (0, output)

/-- A run on the standard input. -/
def runStdin (s : Surroundings) (p : Plan) (data : Bytes) (fs : FileSystem) : Outcome :=
  match parse p.limit (.bytes data) with
  | .error (.malformed e) =>
    { exit := .code 1
      stderr := logLine s p (faultRecord "source" stdinName e) ++ faultLine stdinName e
      files := fs }
  | .error e => { exit := .failed (.document e), files := fs }
  | .ok v =>
    match formatStdin p data v with
    | .error e => { exit := .failed (.document e), files := fs }
    | .ok (code, output) => { exit := .code code, stdout := output, files := fs }

/-! ### Files -/

/-- What is printed for one report, and whether the run fails because of it. -/
structure Printed where
  stdout : Text := []
  stderr : Text := []
  failed : Bool := false

/-- What is printed for a report. -/
def printReport (s : Surroundings) (p : Plan) (r : FileReport) : Printed :=
  match r.outcome with
  | .malformed e =>
    { stderr := logLine s p (faultRecord "path" r.path e) ++ faultLine r.path e, failed := true }
  | .formatted _ digest changed written =>
    if p.digest then { stdout := digest ++ "  " ++ r.path ++ "\n" }
    else if p.check && changed then
      { stdout := if p.quiet then [] else reformatLine r.path, failed := true }
    else if written then
      { stderr := logLine s p ⟨.info, "file_canonicalized", [("path", .text r.path)]⟩ }
    else { stderr := logLine s p ⟨.debug, "file_unchanged", [("path", .text r.path)]⟩ }

def summary (p : Plan) (reports : List FileReport) : Text :=
  if p.check && !p.quiet then countLine (reports.countP FileReport.isChanged) reports.length else []

/-- What a run has printed, and the first line that could not be encoded, if there is one. -/
structure Transcript where
  stdout : Bytes := []
  stderr : Text := []
  failed : Bool := false
  refused : Option EncodeError := none

/-- The transcript of printing one thing after the other, up to a line that cannot be encoded. -/
def printAll : List Printed → Transcript
  | [] => {}
  | p :: ps =>
    match Utf8.encode p.stdout with
    | .error e => { refused := some e }
    | .ok bs =>
      let rest := printAll ps
      ⟨bs ++ rest.stdout, p.stderr ++ rest.stderr, p.failed || rest.failed, rest.refused⟩

/-- What a plan asks for each file: files are written unless they are only to be checked or digested. -/
def Plan.options (p : Plan) : UpdateOptions :=
  ⟨some p.order, some p.layout, .ok p.limit, !(p.check || p.digest)⟩

/-- What a batch of files leads to: its problem, or what is printed for the reports. -/
def reportBatch (s : Surroundings) (p : Plan) : Except FileProblem (List FileReport) × FileSystem → Outcome
  | (.error e, fs') => { exit := .failed e, files := fs' }
  | (.ok reports, fs') =>
    let transcript := printAll (reports.map (printReport s p) ++ [{ stdout := summary p reports }])
    { exit := match transcript.refused with
        | some e => .failed (.document (.unencodable e))
        | none => .code (if transcript.failed then 1 else 0)
      stdout := transcript.stdout
      stderr := transcript.stderr
      files := fs' }

/-- A run on files, one after the other. -/
def runFiles (s : Surroundings) (p : Plan) (paths : List Path) (fs : FileSystem) : Outcome :=
  reportBatch s p (updateFiles p.options p.jobs s.replacement paths fs)

/-- A run on files in a course of the threads. -/
def runFilesOn (course : List Nat) (s : Surroundings) (p : Plan) (paths : List Path) (fs : FileSystem) : Outcome :=
  reportBatch s p (updateFilesOn course p.options p.jobs s.replacement paths fs)

/-! ### The whole command line -/

def usageLines (s : Surroundings) (e : UsageError) : Text :=
  s.usage ++ "\n" ++ programName ++ ": error: " ++ e.message ++ "\n"

/-- What a task does, given what runs on files do. -/
def perform (batch : Plan → List Path → FileSystem → Outcome) (s : Surroundings) (stdin : Bytes) (fs : FileSystem) :
    Task → Outcome
  | .help => { exit := .code 0, stdout := octets helpText, files := fs }
  | .version => { exit := .code 0, stdout := octets versionText, files := fs }
  | .format p [] => runStdin s p stdin fs
  | .format p files => batch p (files.map Path.ofText) fs

/-- A run of the program, given what runs on files do. Surrogates are spelled out on the standard error stream. -/
def runWith (batch : Plan → List Path → FileSystem → Outcome) (s : Surroundings) (args : List Text) (stdin : Bytes)
    (fs : FileSystem) : Outcome :=
  let outcome : Outcome :=
    match taskOf args with
    | .error (.usage e) => { exit := .code 2, stderr := usageLines s e, files := fs }
    | .error (.problem e) => { exit := .failed (.document e), files := fs }
    | .ok task => perform batch s stdin fs task
  { outcome with stderr := Text.spellSurrogates outcome.stderr }

/-- A run of the program that brings files into canonical form one after the other. -/
def run (s : Surroundings) (args : List Text) (stdin : Bytes) (fs : FileSystem) : Outcome :=
  runWith (runFiles s) s args stdin fs

/-- A run of the program in a course of the threads. -/
def runOn (course : List Nat) (s : Surroundings) (args : List Text) (stdin : Bytes) (fs : FileSystem) : Outcome :=
  runWith (runFilesOn course s) s args stdin fs

end CanonJson.Command
