import CanonJson.Plain.Walk
/-!
# Between trees and plain data

Data become trees by kind: numbers take their text form, lists and tuples become arrays and
tables objects. Trees become data with integers kept exact, other numbers as decimals, and of a
repeated key the last value at the place of the first.
-/

namespace CanonJson

namespace Datum

/-- The text of a table key. -/
def keyText : Datum → Except Problem Text
  | .scalar (.text t) => .ok t
  | d => .error (.keyType d.typeName)

mutual

/-- The tree of plain data. The keys of a table are looked at before its values. -/
def toValue : Datum → Except Problem Value
  | .scalar s => s.toValue
  | .list items => do return .array (← itemsToValues items)
  | .tuple items => do return .array (← itemsToValues items)
  | .set _ => .error (.datumType "set")
  | .table entries => do
    let keys ← entries.mapM fun e => keyText e.1
    return .object (keys.zip (← entriesToValues entries))

/-- The trees of items from left to right. -/
def itemsToValues : List Datum → Except Problem (List Value)
  | [] => .ok []
  | x :: xs => do
    let v ← toValue x
    let vs ← itemsToValues xs
    return v :: vs

/-- The trees of a table's values from left to right. -/
def entriesToValues : List (Datum × Datum) → Except Problem (List Value)
  | [] => .ok []
  | (_, x) :: xs => do
    let v ← toValue x
    let vs ← entriesToValues xs
    return v :: vs

end

end Datum

/-- The entries with each key once: at the place of its first entry, with the value of its last. -/
def collapse {α : Type} (entries : List (Text × α)) : List (Text × α) :=
  entries.foldl (fun acc e => Datum.insertEntry (· == ·) acc e.1 e.2) []

namespace Value

/-- Whether number text has neither a fraction nor an exponent. -/
def isIntegerText (t : Text) : Bool :=
  !t.any fun c => c.is '.' || c.is 'e' || c.is 'E'

/-- The decimal that number text denotes. -/
def numberDecimal (t : Text) : Except Problem Decimal :=
  match Decimal.ofText t with
  | .ok d => .ok d
  | .error e => .error (.decimal e)

/-- The integer that integer text denotes. -/
def numberInteger (t : Text) : Except Problem Int :=
  match Digits.toInt (t.dropWhile (·.is '-')) with
  | .ok n => .ok (if Text.startsWith t ['-'] then -n else n)
  | .error piece => .error (.notInteger piece)

/-- The datum of number text: an integer for integer text, a decimal for any other. -/
def numberDatum (t : Text) : Except Problem Datum :=
  if isIntegerText t then do return .scalar (.int (← numberInteger t))
  else do return .scalar (.decimal (← numberDecimal t))

/-- The datum of a value without parts. -/
def leafDatum : Value → Except Problem Datum
  | .null => .ok (.scalar .none)
  | .bool b => .ok (.scalar (.bool b))
  | .number t => numberDatum t
  | .string t => .ok (.scalar (.text t))
  | .array _ => .ok (.list [])
  | .object _ => .ok (.table [])
  | .foreign d => .error (.foreignNode d.typeName)

/-- What becomes of each node, its children being plain data already. -/
def plainAlgebra : Algebra Problem Datum where
  leaf := leafDatum
  array items := .ok (.list items)
  object members := .ok (.table ((collapse members).map fun e => (.scalar (.text e.1), e.2)))

/-- The plain data of a tree. -/
def toDatum (v : Value) : Except Problem Datum :=
  plainAlgebra.walk v

end Value

end CanonJson
