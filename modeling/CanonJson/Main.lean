import CanonJson.Command.Clock
import CanonJson.Command.Run
import Std.Time.DateTime.Timestamp
/-!
# The program

The outermost layer of the command line: it looks at the files that the arguments name, lets the run
be computed, and carries out what the run says.
-/

namespace CanonJson.Main

open Command

/-- The permission bits are left to the system: a file that is written over keeps its own. -/
def keptMode : Nat := 0

/-- The file system with what a path leads to. -/
def load (fs : FileSystem) (path : Path) : IO FileSystem := do
  let name := path.toText.toString
  try
    let bytes ← IO.FS.readBinFile name
    match fs.put path ⟨keptMode, bytes.toList⟩ with
    | .ok fs' => return fs'
    | .error _ => return fs
  catch _ =>
    if ← ((← IO.currentDir) / name).isDir then
      return { fs with directories := fs.place path :: fs.directories }
    return fs

/-- The working directory, with the files that the arguments name. -/
def loadAll (args : List Text) : IO FileSystem := do
  let home := (Path.ofText (Text.ofString (← IO.currentDir).toString)).parts
  match taskOf args with
  | .ok (.format _ files) => (files.map Path.ofText).foldlM load { home := home }
  | _ => return { home := home }

/-- Writes the files that a run has changed. -/
def store (before after : FileSystem) : IO Unit :=
  after.files.forM fun (place, f) => do
    match before.nodeAt place with
    | .file _ old =>
      if old.bytes != f.bytes then
        IO.FS.writeBinFile ("/" ++ (Text.join "/" place).toString) ⟨f.bytes.toArray⟩
    | _ => return

end CanonJson.Main

open CanonJson in
/-- Runs the program on its arguments and its standard input. -/
def main (arguments : List String) : IO UInt32 := do
  let args := arguments.map Text.ofString
  let before ← Main.loadAll args
  let stdin ← match Command.taskOf args with
    | .ok (.format _ []) => do pure (← (← IO.getStdin).readBinToEnd).toList
    | _ => pure []
  let now := (← Std.Time.Timestamp.now).toNanosecondsSinceUnixEpoch.val
  let outcome := Command.run { rendering := .standard (Command.timestamp (now / 1000)) } args stdin before
  Main.store before outcome.files
  let stdout ← IO.getStdout
  stdout.write ⟨outcome.stdout.toArray⟩
  stdout.flush
  IO.eprint outcome.stderr.toString
  match outcome.exit with
  | .code n => return UInt32.ofNat n
  | .failed p =>
    IO.eprintln p.message.toString
    return 1
