import CanonJson.Layout.Render
import CanonJson.Order.Lex
import CanonJson.Order.Options
/-!
# Sort keys

What members and array items are compared by. The key of a number is built from its exact digits, so
that numbers of any size compare by value: below zero the point and the digits count backwards.
-/

namespace CanonJson

/-- What the key of a member is compared by, as a list of numbers. -/
def memberKey (order : KeyOrder) (key : Text) : Except Problem (List Nat) :=
  match order with
  | .codePoint => .ok (key.map CodePoint.val)
  | .utf16 =>
    match Utf16.encode key with
    | .ok bs => .ok (bs.map UInt8.toNat)
    | .error e => .error (.unencodable e)

/-- What a number is compared by: its side of zero, then its point, then its digits. -/
structure NumberKey where
  side : Nat
  point : Int
  digits : List Nat
deriving DecidableEq

namespace NumberKey

/-- The key of an exact value. Below zero a greater magnitude comes first, and the ten at the end puts
the shorter of two magnitudes that begin alike behind the longer. -/
def ofParts (p : NumberParts) : NumberKey :=
  if p.digits.isEmpty then ⟨1, 0, []⟩
  else if p.negative then ⟨0, -p.point, p.digits.map (fun c => 9 - c.digitValue) ++ [10]⟩
  else ⟨2, p.point, p.digits.map CodePoint.digitValue⟩

def le (a b : NumberKey) : Bool :=
  if a.side < b.side then true
  else if b.side < a.side then false
  else if a.point < b.point then true
  else if b.point < a.point then false
  else lexLe id a.digits b.digits

end NumberKey

inductive TypedKey where
  | null
  | bool (b : Bool)
  | number (k : NumberKey)
  | text (t : Text)

namespace TypedKey

/-- Whether the first key comes no later than the second; keys of different types are never
compared. -/
def le : TypedKey → TypedKey → Bool
  | .bool a, .bool b => !a || b
  | .number a, .number b => a.le b
  | .text a, .text b => lexLe CodePoint.val a b
  | _, _ => true

/-- The key of a value: containers are compared by their compact text. -/
def ofValue : Value → Except Problem TypedKey
  | .null => .ok .null
  | .bool b => .ok (.bool b)
  | .number t =>
    match NumberParts.ofText? t with
    | some p => .ok (.number (.ofParts p))
    | none => .error (.notNumeral t)
  | .string t => .ok (.text t)
  | .foreign d => .error (.foreignNode d.typeName)
  | v => do return .text (← render .compact v)

end TypedKey

/-- What an array item is compared by: the type rank and the value of the member that arrays are
sorted by; items without that member come last, in the order they had. -/
inductive ElementKey where
  | carries (rank : Nat) (key : TypedKey)
  | last

namespace ElementKey

def le : ElementKey → ElementKey → Bool
  | .carries r a, .carries s b => if r < s then true else if s < r then false else a.le b
  | .carries .., .last => true
  | .last, .carries .. => false
  | .last, .last => true

def rank (v : Value) : Except Problem Nat :=
  match v.rank? with
  | .ok r => .ok r
  | .error name => .error (.foreignNode name)

def ofItem (member : Text) : Value → Except Problem ElementKey
  | .object members =>
    match Value.lookup member members with
    | none => .ok .last
    | some v => do
      let r ← rank v
      return .carries r (← TypedKey.ofValue v)
  | _ => .ok .last

end ElementKey

end CanonJson
