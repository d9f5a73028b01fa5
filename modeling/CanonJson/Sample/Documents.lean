import CanonJson.Number.Shortest
import CanonJson.Syntax.Source
/-!
# Sample documents and time budgets

Documents of adjustable size, each of which strains one part of the way from text to text, and the
time that such a run may take, which a text from outside may override.
-/

namespace CanonJson.Sample

/-- The sample documents. -/
inductive Kind where
  | wideObject
  | longArray
  | deepNesting
  | stringHeavy

def Kind.ofName? (name : Text) : Option Kind :=
  ([("wide_object", .wideObject), ("long_array", .longArray), ("deep_nesting", .deepNesting),
    ("string_heavy", .stringHeavy)].find? fun (p : String × Kind) => Text.ofString p.1 = name).map Prod.snd

def Kind.defaultSize : Kind → Nat
  | .wideObject => 20000
  | .longArray => 20000
  | .deepNesting => defaultDepth
  | .stringHeavy => 5000

private def enclosed (opener closer : Char) (entries : List Text) : Text :=
  CodePoint.ofChar opener :: Text.join [CodePoint.ofChar ','] entries ++ [CodePoint.ofChar closer]

/-- One object with many members, the keys descending. -/
def wideObject (size : Nat) : Text :=
  enclosed '\x7b' '\x7d' ((List.range size).reverse.map fun i =>
    "\"key" ++ Digits.zeroFill 6 (Text.ofNat i) ++ "\":" ++ Text.ofNat i)

/-- An array of small objects whose members are out of order. -/
def longArray (size : Nat) : Text :=
  enclosed '[' ']' ((List.range size).map fun i =>
    "\x7b\"z\":" ++ Text.ofNat i ++ ",\"a\":\"" ++ Text.ofNat i ++ "\",\"m\":[1.50,2e3]\x7d")

/-- Arrays and objects in turn, one inside the other. -/
def deepNesting (size : Nat) : Text :=
  let levels := List.range size
  levels.flatMap (fun l => if l % 2 = 1 then Text.ofString "\x7b\"k\":" else Text.ofString "[")
    ++ "0"
    ++ levels.reverse.flatMap fun l => if l % 2 = 1 then Text.ofString "\x7d" else Text.ofString "]"

/-- Strings full of escapes. -/
def stringHeavy (size : Nat) : Text :=
  enclosed '[' ']' (List.replicate size
    "\"line\\nbreak \\\"quoted\\\" caf\\u00e9 \\ud83d\\ude00 tab\\t\"")

/-- The sample of a kind and a size. -/
def document : Kind → Nat → Text
  | .wideObject => wideObject
  | .longArray => longArray
  | .deepNesting => deepNesting
  | .stringHeavy => stringHeavy

/-- A quarter of a default, as long as a floating-point number is near it. -/
def quarter (n : Int) : Except Problem Binary64 :=
  let q := Binary64.ofRatio (n < 0) n.natAbs 4
  if q.isFinite then .ok q else .error .quotientTooLarge

/-- A time budget: the number that a text spells, or the default if there is no such text. -/
def budget (raw : Option Text) (default : Binary64) : Binary64 :=
  match raw with
  | none => default
  | some t => if t.isEmpty then default else (Binary64.ofText? t).getD default

end CanonJson.Sample
