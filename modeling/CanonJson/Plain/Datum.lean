import CanonJson.Number.Shortest
import CanonJson.Text.Quoted
/-!
# Plain data

The in-memory data that trees are built from and turned into: scalars, lists, tuples, sets and
tables. Numbers compare by value across their types, sets and tables without regard to
order. A signaling not-a-number refuses to be compared with a number and to be looked up, and a
comparison goes only so deep.
-/

namespace CanonJson

/-- A datum without parts. Objects of any other type are known by the name of their type. -/
inductive Scalar where
  | none
  | bool (b : Bool)
  | int (n : Int)
  | float (x : Binary64)
  | decimal (d : Decimal)
  | text (t : Text)
  | bytes (bs : Bytes)
  | other (typeName : Text)

/-- Plain data without sharing. -/
inductive Datum where
  | scalar (s : Scalar)
  | list (items : List Datum)
  | tuple (items : List Datum)
  | set (items : List Datum)
  | table (entries : List (Datum × Datum))

/-- Why two data are not compared: one is a signaling not-a-number, or they are nested too deep. -/
inductive Incomparable where
  | signaling
  | tooDeep
deriving DecidableEq

namespace Scalar

/-- The name of a scalar's type. -/
def typeName : Scalar → Text
  | .none => "NoneType"
  | .bool _ => "bool"
  | .int _ => "int"
  | .float _ => "float"
  | .decimal _ => "Decimal"
  | .text _ => "str"
  | .bytes _ => "bytes"
  | .other name => name

/-- The name of a scalar's type with the module that it belongs to, if it is not built in. -/
def qualifiedName : Scalar → Text
  | .decimal _ => "decimal.Decimal"
  | s => s.typeName

/-- Whether a scalar is a signaling not-a-number. -/
def isSignaling : Scalar → Bool
  | .decimal (.nan _ signaling _) => signaling
  | _ => false

/-- The numeric value of a scalar as a decimal, if it is a number. -/
def numeric? : Scalar → Option Decimal
  | .bool b => some (.finite false b.toNat 0)
  | .int n => some (.finite (n < 0) n.natAbs 0)
  | .decimal d => some d
  | .float x =>
    if x.isNaN then some (.nan false false [])
    else if !x.isFinite then some (.infinite x.negative)
    else if x.exponent ≥ 0 then some (.finite x.negative (x.significand * Nat.pow 2 x.exponent.toNat) 0)
    else
      let places := (-x.exponent).toNat
      some (.finite x.negative (x.significand * Nat.pow 5 places) (-places))
  | _ => Option.none

/-- Whether two scalars are equal; numbers are compared by value, and nothing is said of a number and
a signaling not-a-number. -/
def same? (a b : Scalar) : Except Incomparable Bool :=
  match a.numeric?, b.numeric? with
  | some x, some y =>
    if a.isSignaling || b.isSignaling then .error .signaling else .ok (decimalSame x y)
  | _, _ =>
    match a, b with
    | .none, .none => .ok true
    | .text s, .text t => .ok (s == t)
    | .bytes s, .bytes t => .ok (s == t)
    | _, _ => .ok false
where
  /-- The coefficient without trailing zeros, and the exponent that makes up for them. -/
  reduced (coefficient : Nat) (exponent : Int) : Text × Int :=
    let digits := Text.ofNat coefficient
    let kept := (digits.reverse.dropWhile (·.is '0')).reverse
    if kept.isEmpty then ([], 0) else (kept, exponent + (digits.length - kept.length : Nat))
  /-- Equality of decimal values; a not-a-number equals nothing. -/
  decimalSame : Decimal → Decimal → Bool
    | .finite s c e, .finite s' c' e' =>
      reduced c e == reduced c' e' && (s == s' || c == 0)
    | .infinite s, .infinite s' => s == s'
    | _, _ => false

end Scalar

namespace Datum

/-- The name of a datum's type. -/
def typeName : Datum → Text
  | .scalar s => s.typeName
  | .list _ => "list"
  | .tuple _ => "tuple"
  | .set _ => "set"
  | .table _ => "dict"

/-- The name of a datum's type with the module that it belongs to, if it is not built in. -/
def qualifiedName : Datum → Text
  | .scalar s => s.qualifiedName
  | d => d.typeName

/-- How deep a comparison goes. -/
def comparisonDepth : Nat := 990

mutual

/-- Whether two data are equal, as far as a comparison from left to right is allowed to say, with room
for so many levels: lists, sets and tables of different lengths differ without a look at what they
hold. -/
def sameWithin? : Nat → Datum → Datum → Except Incomparable Bool
  | 0, _, _ => .error .tooDeep
  | _ + 1, .scalar a, .scalar b => a.same? b
  | room + 1, .list a, .list b => if a.length = b.length then sameItems? room a b else .ok false
  | room + 1, .tuple a, .tuple b => sameItems? room a b
  | _ + 1, .set a, .set b => .ok (a.length == b.length && subset a b)
  | room + 1, .table a, .table b => if a.length = b.length then subtable? room a b else .ok false
  | _ + 1, _, _ => .ok false

/-- Whether two lists of data are equal item by item. -/
def sameItems? : Nat → List Datum → List Datum → Except Incomparable Bool
  | _, [], [] => .ok true
  | room, x :: xs, y :: ys =>
    match sameWithin? room x y with
    | .ok true => sameItems? room xs ys
    | verdict => verdict
  | _, _, _ => .ok false

/-- Whether each datum of the first list occurs in the second. -/
def subset : List Datum → List Datum → Bool
  | [], _ => true
  | x :: xs, ys =>
    ys.any (fun y => (sameWithin? comparisonDepth x y).toOption == some true) && subset xs ys

/-- Whether each entry of the first table occurs in the second. Keys are looked up, so their depth
does not count. -/
def subtable? : Nat → List (Datum × Datum) → List (Datum × Datum) → Except Incomparable Bool
  | _, [], _ => .ok true
  | room, (k, v) :: xs, ys =>
    match ys.find? fun e => (sameWithin? comparisonDepth k e.1).toOption == some true with
    | none => .ok false
    | some e =>
      match sameWithin? room v e.2 with
      | .ok true => subtable? room xs ys
      | verdict => verdict

end

/-- Whether two data are equal, unless a comparison is refused. -/
def same? (a b : Datum) : Except Incomparable Bool :=
  sameWithin? comparisonDepth a b

/-- Whether two data are known to be equal. -/
def same (a b : Datum) : Bool :=
  (a.same? b).toOption == some true

/-- Why a datum cannot be looked up: its type does not allow it, or it is a signaling
not-a-number. -/
inductive LookupRefusal where
  | type (name : Text)
  | signaling
deriving DecidableEq

mutual

/-- What keeps a datum from being looked up, if anything does. -/
def unhashable? : Datum → Option LookupRefusal
  | .scalar s => if s.isSignaling then some .signaling else none
  | .tuple items => unhashableItem? items
  | .list _ => some (.type "list")
  | .set _ => some (.type "set")
  | .table _ => some (.type "dict")

/-- What keeps the first such item of a tuple from being looked up. -/
def unhashableItem? : List Datum → Option LookupRefusal
  | [] => none
  | x :: xs =>
    match unhashable? x with
    | some refusal => some refusal
    | none => unhashableItem? xs

end

/-- The entry list with one more entry: a known key keeps its place and takes the new value. -/
def insertEntry {α β : Type} (sameKey : α → α → Bool) (entries : List (α × β)) (k : α) (v : β) :
    List (α × β) :=
  if entries.any fun e => sameKey e.1 k then
    entries.map fun e => if sameKey e.1 k then (e.1, v) else e
  else entries ++ [(k, v)]

private def scalarText : Scalar → Text
  | .none => "None"
  | .bool true => "True"
  | .bool false => "False"
  | .int n => Text.ofInt n
  | .float x => x.toText
  | .decimal d => "Decimal(" ++ Text.quoted d.toText ++ ")"
  | .text t => Text.quoted t
  | s => "<" ++ s.typeName ++ ">"

mutual

/-- A datum as messages show it. -/
def shown : Datum → Text
  | .scalar s => scalarText s
  | .list items => "[" ++ Text.join ", " (shownItems items) ++ "]"
  | .tuple [item] => "(" ++ shown item ++ ",)"
  | .tuple items => "(" ++ Text.join ", " (shownItems items) ++ ")"
  | .set [] => "set()"
  | .set items => "\x7b" ++ Text.join ", " (shownItems items) ++ "\x7d"
  | .table entries => "\x7b" ++ Text.join ", " (shownEntries entries) ++ "\x7d"

/-- The items of a container as messages show them. -/
def shownItems : List Datum → List Text
  | [] => []
  | x :: xs => shown x :: shownItems xs

/-- The entries of a table as messages show them. -/
def shownEntries : List (Datum × Datum) → List Text
  | [] => []
  | (k, v) :: xs => (shown k ++ ": " ++ shown v) :: shownEntries xs

end

end Datum

end CanonJson
