import CanonJson.Command.Flags
import CanonJson.Fields.Read
import CanonJson.Fields.Report
/-!
# Reading the command line

Every argument is classified first: an option, possibly abbreviated or with a value behind an equals
sign, or a value. Then the options act from left to right. The files are the first run of arguments
that are neither options nor values of options; later ones and unknown options are refused at the end.
-/

namespace CanonJson.Command

inductive UsageError where
  | ambiguous (argument : Text) (candidates : List Switch)
  | ignoredValue (s : Switch) (value : Text)
  | missingValue (s : Switch)
  | badInteger (s : Switch) (value : Text)
  | badChoice (s : Switch) (value : Text) (choices : List String)
  | badIndent (value : Text)
  | negativeIndent (value : Int)
  | unrecognized (arguments : List Text)
  | depthNotPositive
  | jobsNotPositive
  | quietAndVerbose
  | invalidOptions (record : String) (got : Datum) (issues : List Issue)

namespace UsageError

private def about (s : Switch) (t : Text) : Text :=
  "argument " ++ s.names ++ ": " ++ t

def message : UsageError → Text
  | .ambiguous arg candidates =>
    "ambiguous option: " ++ arg ++ " could match "
      ++ Text.join ", " (candidates.map fun s => Text.ofString s.name)
  | .ignoredValue s v => about s ("ignored explicit argument " ++ Text.quoted v)
  | .missingValue s => about s "expected one argument"
  | .badInteger s v => about s ("invalid int value: " ++ Text.quoted v)
  | .badChoice s v choices =>
    about s ("invalid choice: " ++ Text.quoted v ++ " (choose from "
      ++ Text.join ", " (choices.map fun c => Text.quoted (Text.ofString c)) ++ ")")
  | .badIndent v => about .indent ("expected a number, 'tab' or 'none', got " ++ Text.quoted v)
  | .negativeIndent n => about .indent ("indent must be >= 0, got " ++ Text.ofInt n)
  | .unrecognized args => "unrecognized arguments: " ++ Text.join " " args
  | .depthNotPositive => "--max-depth must be >= 1"
  | .jobsNotPositive => "--jobs must be >= 1"
  | .quietAndVerbose => "--quiet and --verbose are mutually exclusive"
  | .invalidOptions record got issues => Issue.report record got issues

end UsageError

/-! ### Classes of arguments -/

inductive ArgumentClass where
  /-- An option by its long name, with the value behind an equals sign. -/
  | long (s : Switch) (value : Option Text)
  /-- The short option for help, with what follows its letter. -/
  | short (tail : Text)
  | unknown
  | value
  | endOfOptions

private def equals : CodePoint := CodePoint.ofChar '='

/-- The text before the first equals sign, and the text behind it, if there is one. -/
def splitEquals (t : Text) : Text × Option Text :=
  match t.dropWhile (· ≠ equals) with
  | [] => (t, none)
  | _ :: rest => (t.takeWhile (· ≠ equals), some rest)

private def longNamed? (t : Text) : Option Switch :=
  Switch.all.find? fun s => Text.ofString s.name = t

private def isDash (c : CodePoint) : Bool := c.is '-'

/-- Whether a text looks like a negative number: digits, or a point with digits behind it. -/
def isNegativeNumber (t : Text) : Bool :=
  match t with
  | [] => false
  | c :: rest =>
    let body := match rest.reverse with
      | d :: front => if d.is '\n' then front.reverse else rest
      | [] => rest
    let isDigit (c : CodePoint) : Bool := (Text.decimalDigit? c).isSome
    let whole := body.takeWhile isDigit
    let behind := body.dropWhile isDigit
    c.is '-' &&
      match behind with
      | [] => !whole.isEmpty
      | p :: digits => p.is '.' && !digits.isEmpty && digits.all isDigit

/-- The class of an argument that starts with a dash and names no option in full. -/
def classifyDashed (t : Text) : Except UsageError ArgumentClass :=
  let fallback : ArgumentClass :=
    if isNegativeNumber t || t.any (·.is ' ') then .value else .unknown
  match t with
  | _ :: c :: tail =>
    if isDash c then
      let (start, value) := splitEquals t
      match Switch.all.filter fun s => start.isPrefixOf (Text.ofString s.name) with
      | [] => .ok fallback
      | [s] => .ok (.long s value)
      | candidates => .error (.ambiguous t candidates)
    else if c.is 'h' then .ok (.short tail)
    else .ok fallback
  | _ => .ok .value

def classify (t : Text) : Except UsageError ArgumentClass :=
  match t with
  | [] => .ok .value
  | c :: _ =>
    if !isDash c then .ok .value
    else
      match longNamed? t with
      | some s => .ok (.long s none)
      | none =>
        match splitEquals t with
        | (start, some value) =>
          match longNamed? start with
          | some s => .ok (.long s (some value))
          | none => classifyDashed t
        | (_, none) => classifyDashed t

/-- The mark behind which everything is a value. -/
def endMark : Text := Text.ofChars ['-', '-']

/-- The arguments with their classes; behind `--` everything is a value. -/
def classifyAll : List Text → Except UsageError (List (ArgumentClass × Text))
  | [] => .ok []
  | t :: ts =>
    if t = endMark then
      .ok ((.endOfOptions, t) :: ts.map fun v => (.value, v))
    else do
      let c ← classify t
      return (c, t) :: (← classifyAll ts)

/-! ### Values of options -/

private def lowered (t : Text) : Text :=
  t.map CodePoint.toLowerAscii

private def readInt (s : Switch) (t : Text) : Except UsageError Int :=
  match Digits.readBounded? t with
  | some n => .ok n
  | none => .error (.badInteger s t)

/-- An indentation: `tab`, `none`, or a number of spaces. -/
def readIndent (t : Text) : Except UsageError Indent :=
  if lowered t = Text.ofString "tab" then .ok .tab
  else if lowered t = Text.ofString "none" then .ok .singleLine
  else
    match Digits.readBounded? t with
    | none => .error (.badIndent t)
    | some n => if n < 0 then .error (.negativeIndent n) else .ok (.spaces n.toNat)

def setValue (f : Flags) (s : Switch) (t : Text) : Except UsageError Flags :=
  match s with
  | .keyOrder =>
    match Fields.keyOrders.find? fun c => Text.ofString c.1 = t with
    | some c => .ok { f with keyOrder := .given c.2 }
    | none => .error (.badChoice s t (Fields.keyOrders.map Prod.fst))
  | .sortByValue => .ok { f with sortByValue := .given t }
  | .indent => do return { f with indent := .given (← readIndent t) }
  | .maxDepth => do return { f with maxDepth := .given (← readInt s t) }
  | .jobs => do return { f with jobs := .given (← readInt s t) }
  | _ => .ok (f.turnOn s)

/-- The choices with the value behind an equals sign read; the bare mark leaves the option empty. -/
def setAttached (f : Flags) (s : Switch) (t : Text) : Except UsageError Flags :=
  if t = endMark then .ok (f.setEmpty s) else setValue f s t

/-! ### Acting from left to right -/

/-- What a command line asks for. -/
inductive Request where
  | help
  | version
  | format (flags : Flags) (files : List Text)

/-- Whether the run of files is still to come, under way, or over. -/
inductive FileRun where
  | ahead
  | started
  | over

/-- What has been read so far, newest first. -/
structure Reading where
  flags : Flags := {}
  files : List Text := []
  run : FileRun := .ahead
  extras : List Text := []

namespace Reading

/-- The reading at an option, which ends a run of files. -/
def atOption (r : Reading) : Reading :=
  match r.run with
  | .started => { r with run := .over }
  | _ => r

/-- The reading with a file, or with one argument too many. -/
def addFile (r : Reading) (t : Text) : Reading :=
  match r.run with
  | .over => { r with extras := t :: r.extras }
  | _ => { r with files := t :: r.files, run := .started }

/-- The reading at `--`, which belongs to a run of files without being one. -/
def addEndOfOptions (r : Reading) (t : Text) : Reading :=
  match r.run with
  | .over => { r with extras := t :: r.extras }
  | _ => { r with run := .started }

end Reading

/-- The short option for help, with what follows its letter, possibly behind an equals sign. More
letters of the same kind are the same option again; anything else is a value, which is refused. -/
def shortOption (tail : Text) : Except UsageError Unit :=
  let refuseValue (value : Text) : Except UsageError Unit :=
    match value.dropWhile (·.is 'h') with
    | [] => .ok ()
    | rest => .error (.ignoredValue .help rest)
  match tail with
  | [] => .ok ()
  | e :: value =>
    if e ≠ equals then refuseValue tail
    else if value.isEmpty then .error (.ignoredValue .help value)
    else refuseValue value

/-- Lets the arguments act from left to right. -/
def act : List (ArgumentClass × Text) → Reading → Except UsageError Request
  | [], r =>
    if r.extras.isEmpty then .ok (.format r.flags r.files.reverse)
    else .error (.unrecognized r.extras.reverse)
  | (.value, t) :: rest, r => act rest (r.addFile t)
  | (.endOfOptions, t) :: rest, r => act rest (r.addEndOfOptions t)
  | (.unknown, t) :: rest, r => act rest { r.atOption with extras := t :: r.extras }
  | (.short tail, _) :: _, _ => do
    shortOption tail
    return .help
  | (.long s (some v), _) :: rest, r =>
    if s.takesValue then do act rest { r.atOption with flags := ← setAttached r.flags s v }
    else .error (.ignoredValue s v)
  | (.long .help none, _) :: _, _ => .ok .help
  | (.long .version none, _) :: _, _ => .ok .version
  | (.long s none, _) :: rest, r =>
    if s.takesValue then
      match rest with
      | (.value, v) :: rest' => do act rest' { r.atOption with flags := ← setValue r.flags s v }
      | _ => .error (.missingValue s)
    else act rest { r.atOption with flags := r.flags.turnOn s }

/-- What a command line asks for. -/
def readArguments (args : List Text) : Except UsageError Request := do
  act (← classifyAll args) {}

end CanonJson.Command
