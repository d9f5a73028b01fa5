import CanonJson.Files.System
import CanonJson.Number.Digits
/-!
# Replacing a file

The new contents go to a temporary file in the same directory, which is then given the permission bits
and, in one step, the name of the file. The system may refuse any of these steps; then the temporary
file is removed again.
-/

namespace CanonJson

/-- The steps that make a temporary file the file. -/
inductive ReplaceStep where
  | write
  | setMode
  | rename
deriving DecidableEq

namespace ReplaceStep

def all : List ReplaceStep := [.write, .setMode, .rename]

/-- What a step does on the way to the file `new` at `place`, with the temporary file at `temp`. -/
def apply (place temp : List Text) (new : File) (fs : FileSystem) : ReplaceStep → FileSystem
  | .write => fs.modifyFile temp fun f => { f with bytes := new.bytes }
  | .setMode => fs.modifyFile temp fun f => { f with mode := new.mode }
  | .rename => fs.moveFile temp place

end ReplaceStep

/-- The names that are tried for a temporary file, one after the other, by default. -/
def temporaryNames : List Text :=
  (List.range 10000).map fun n => Digits.zeroFill 8 (Text.ofNat n)

/-- What replacing a file depends on besides the files: the names that are tried for the temporary file,
and the step that the system refuses, if there is one. -/
structure Replacement where
  names : List Text := temporaryNames
  refused : Option ReplaceStep := none

def temporaryMode : Nat := 0o600

/-- The place beside another for a temporary file, which is hidden and shows what it stands for. -/
def temporaryPlace (place : List Text) (name : Text) : List Text :=
  place.dropLast ++ [Text.ofString "." ++ place.getLastD [] ++ "." ++ name ++ ".tmp"]

/-- The text of a place, behind the root of the path that led to it. -/
def placeText (p : Path) (place : List Text) : Text :=
  (if p.root.isEmpty then Text.ofString "/" else p.root) ++ Text.join "/" place

namespace FileSystem

/-- The first place for a temporary file where nothing lies. A name that is too long is noticed before
anything is looked up. -/
def freePlace (fs : FileSystem) (p : Path) (place : List Text) : List Text → Except FileProblem (List Text)
  | [] => .error .noTemporaryName
  | name :: names =>
    let temp := temporaryPlace place name
    if FileName.length (temp.getLastD []) > FileName.maxLength
        || FileName.length (placeText p temp) > FileName.maxPathLength then
      .error (.nameTooLong (placeText p temp))
    else
      match fs.nodeAt temp with
      | .missing => .ok temp
      | _ => fs.freePlace p place names

end FileSystem

/-- Takes steps one after the other, up to one that is refused. -/
def takeSteps (refused : Option ReplaceStep) (apply : FileSystem → ReplaceStep → FileSystem) :
    List ReplaceStep → FileSystem → Except FileProblem Unit × FileSystem
  | [], fs => (.ok (), fs)
  | step :: steps, fs =>
    if refused = some step then (.error .replaceFailed, fs)
    else takeSteps refused apply steps (apply fs step)

/-- Puts a new file in the place of the file that a path leads to. -/
def replaceFile (r : Replacement) (p : Path) (place : List Text) (new : File) (fs : FileSystem) :
    Except FileProblem Unit × FileSystem :=
  match fs.freePlace p place r.names with
  | .error e => (.error e, fs)
  | .ok temp =>
    let created := fs.setFile temp ⟨temporaryMode, []⟩
    match takeSteps r.refused (ReplaceStep.apply place temp new) ReplaceStep.all created with
    | (.ok (), fs') => (.ok (), fs')
    | (.error e, fs') => (.error e, fs'.eraseFile temp)

end CanonJson
