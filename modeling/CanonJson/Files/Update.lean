import CanonJson.Document
import CanonJson.Files.Replace
/-!
# Updating files

A file is replaced only after its whole canonical form is known, and only if that differs from what it
holds; it keeps its permission bits. A malformed document is reported and does not stop a batch, any
other problem does.
-/

namespace CanonJson

/-- What to do with a file: the options, the nesting limit, and whether to write. A limit that is
refused is reported once the file has been read. -/
structure UpdateOptions where
  order : Option SortOptions := none
  layout : Option LayoutOptions := none
  limit : Except Problem Nat := .ok defaultDepth
  write : Bool := false

inductive FileOutcome where
  | malformed (e : ParseError)
  | formatted (output : Bytes) (digest : Text) (changed written : Bool)

/-- The contents that replace those of the file, if it is written. -/
def FileOutcome.written? : FileOutcome → Option Bytes
  | .formatted output _ _ true => some output
  | _ => none

structure FileReport where
  path : Text
  outcome : FileOutcome

/-- Whether the report is on a file that was not in canonical form. -/
def FileReport.isChanged (r : FileReport) : Bool :=
  match r.outcome with
  | .formatted _ _ changed _ => changed
  | .malformed _ => false

/-- The canonical form of a file's contents, or the reason why it has none. -/
def formatContents (o : UpdateOptions) (bs : Bytes) : Except Problem Bytes := do
  canonicalizeDocument o.order o.layout (← o.limit) (.bytes bs)

/-- What becomes of a file with the given contents. A malformed document is an outcome as well. -/
def outcomeOf (o : UpdateOptions) (bs : Bytes) : Except Problem FileOutcome :=
  match formatContents o bs with
  | .ok output =>
    let changed := output != bs
    .ok (.formatted output (digestBytes output) changed (o.write && changed))
  | .error (.malformed e) => .ok (.malformed e)
  | .error e => .error e

def updateFile (o : UpdateOptions) (r : Replacement) (p : Path) (fs : FileSystem) :
    Except FileProblem FileReport × FileSystem :=
  match fs.read p with
  | .error e => (.error e, fs)
  | .ok (place, f) =>
    match outcomeOf o f.bytes with
    | .error e => (.error (.document e), fs)
    | .ok outcome =>
      match outcome.written? with
      | none => (.ok ⟨p.toText, outcome⟩, fs)
      | some output =>
        match replaceFile r p place ⟨f.mode, output⟩ fs with
        | (.error e, fs') => (.error e, fs')
        | (.ok (), fs') => (.ok ⟨p.toText, outcome⟩, fs')

/-- Brings files into canonical form one after the other. The first problem stops the batch; what was
written before it stays. -/
def updateEach (o : UpdateOptions) (r : Replacement) :
    List Path → FileSystem → Except FileProblem (List FileReport) × FileSystem
  | [], fs => (.ok [], fs)
  | p :: ps, fs =>
    match updateFile o r p fs with
    | (.error e, fs') => (.error e, fs')
    | (.ok report, fs') =>
      match updateEach o r ps fs' with
      | (.ok reports, fs'') => (.ok (report :: reports), fs'')
      | (.error e, fs'') => (.error e, fs'')

/-- Brings files into canonical form one after the other, as with one worker. More workers may take another course
(`updateFilesOn`). -/
def updateFiles (o : UpdateOptions) (workers : Int) (r : Replacement) (paths : List Path)
    (fs : FileSystem) : Except FileProblem (List FileReport) × FileSystem :=
  if workers < 1 then (.error (.workers workers), fs) else updateEach o r paths fs

/-- The digest of a file's canonical form in hexadecimal, with the options of RFC 8785. -/
def digestFile (p : Path) (fs : FileSystem) : Except FileProblem Text :=
  match fs.read p with
  | .error e => .error e
  | .ok (_, f) =>
    match digestDocument none none defaultDepth (.bytes f.bytes) with
    | .error e => .error (.document e)
    | .ok t => .ok (t.drop digestPrefix.length)

end CanonJson
