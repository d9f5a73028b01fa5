import CanonJson.Files.Name
import CanonJson.Files.Path
import CanonJson.Problem
/-!
# A file system

Files with their permission bits and their octets, and the directories that hold them, each known by
the parts that lead to it from the root. Relative paths start at the working directory.
-/

namespace CanonJson

structure File where
  mode : Nat
  bytes : Bytes
deriving DecidableEq

/-- The files and directories, each by the parts that lead to it, and the working directory. The
working directory and those above it always exist. -/
structure FileSystem where
  home : List Text := []
  files : List (List Text × File) := []
  directories : List (List Text) := []

inductive Node where
  | file (place : List Text) (f : File)
  | directory
  | missing
  | blocked
  | nameTooLong

/-- Why a file operation gives no result. -/
inductive FileProblem where
  | notFound (path : Text)
  | isDirectory (path : Text)
  | notDirectory (path : Text)
  | nameTooLong (path : Text)
  | embeddedNull
  | noTemporaryName
  | replaceFailed
  | workers (count : Int)
  | document (p : Problem)

def FileProblem.message : FileProblem → Text
  | .notFound p => "[Errno 2] No such file or directory: " ++ Text.quoted p
  | .isDirectory p => "[Errno 21] Is a directory: " ++ Text.quoted p
  | .notDirectory p => "[Errno 20] Not a directory: " ++ Text.quoted p
  | .nameTooLong p => "[Errno 36] File name too long: " ++ Text.quoted p
  | .embeddedNull => "embedded null byte"
  | .noTemporaryName => "[Errno 17] No usable temporary file name found"
  | .replaceFailed => "disk full"
  | .workers n => "workers must be >= 1, got " ++ Text.ofInt n
  | .document p => p.message

namespace FileSystem

def fileAt? (fs : FileSystem) (place : List Text) : Option File :=
  (fs.files.find? fun e => e.1 = place).map Prod.snd

def nodeAt (fs : FileSystem) (place : List Text) : Node :=
  match fs.fileAt? place with
  | some f => .file place f
  | none =>
    if place.isPrefixOf fs.home || fs.directories.contains place then .directory else .missing

/-- The place a path starts from. -/
def start (fs : FileSystem) (p : Path) : List Text :=
  if p.root.isEmpty then fs.home else []

/-- The place that one more part leads to; above the root there is the root. -/
def step (place : List Text) (part : Text) : List Text :=
  if part = Path.parentPart then place.dropLast else place ++ [part]

/-- What the parts lead to from a place, through directories only. -/
def nodeFrom (fs : FileSystem) (place : List Text) : List Text → Node
  | [] => fs.nodeAt place
  | part :: rest =>
    match fs.nodeAt place with
    | .directory =>
      if FileName.length part > FileName.maxLength then .nameTooLong
      else fs.nodeFrom (step place part) rest
    | .file .. => .blocked
    | node => node

def node (fs : FileSystem) (p : Path) : Node :=
  fs.nodeFrom (fs.start p) p.parts

/-- The place that a path names, whether anything lies there or not. -/
def place (fs : FileSystem) (p : Path) : List Text :=
  p.parts.foldl step (fs.start p)

/-- Whether a path can name a file at all. -/
def checkName (p : Path) : Except FileProblem Unit :=
  let t := p.toText
  match FileName.encode t with
  | .error e => .error (.document (.unencodable e))
  | .ok bs =>
    if t.any (·.val = 0) then .error .embeddedNull
    else if bs.length > FileName.maxPathLength then .error (.nameTooLong t)
    else .ok ()

/-- The file that a path leads to, with its place. -/
def read (fs : FileSystem) (p : Path) : Except FileProblem (List Text × File) := do
  checkName p
  match fs.node p with
  | .file place f => return (place, f)
  | .directory => throw (.isDirectory p.toText)
  | .missing => throw (.notFound p.toText)
  | .blocked => throw (.notDirectory p.toText)
  | .nameTooLong => throw (.nameTooLong p.toText)

def modifyFile (fs : FileSystem) (place : List Text) (change : File → File) : FileSystem :=
  { fs with files := fs.files.map fun e => if e.1 = place then (place, change e.2) else e }

def setFile (fs : FileSystem) (place : List Text) (f : File) : FileSystem :=
  if (fs.fileAt? place).isSome then fs.modifyFile place fun _ => f
  else { fs with files := fs.files ++ [(place, f)] }

def eraseFile (fs : FileSystem) (place : List Text) : FileSystem :=
  { fs with files := fs.files.filter fun e => e.1 ≠ place }

/-- The file system with a file moved to another place, where it takes the place of a file. -/
def moveFile (fs : FileSystem) (source target : List Text) : FileSystem :=
  match fs.fileAt? source with
  | some f => (fs.eraseFile source).setFile target f
  | none => fs

/-- The directories above a place, the outermost first. -/
def parents (place : List Text) : List (List Text) :=
  (List.range place.length).filterMap fun n => if n = 0 then none else some (place.take n)

/-- The file system with a file written, and the directories above it made. -/
def put (fs : FileSystem) (p : Path) (f : File) : Except FileProblem FileSystem :=
  match fs.node p with
  | .directory => .error (.isDirectory p.toText)
  | .blocked => .error (.notDirectory p.toText)
  | .nameTooLong => .error (.nameTooLong p.toText)
  | .file place _ => .ok (fs.setFile place f)
  | .missing =>
    let made := (parents (fs.place p)).filter fun d => !fs.directories.contains d
    .ok ({ fs with directories := fs.directories ++ made }.setFile (fs.place p) f)

def remove (fs : FileSystem) (p : Path) : Except FileProblem FileSystem := do
  let (place, _) ← fs.read p
  return fs.eraseFile place

end FileSystem

end CanonJson
