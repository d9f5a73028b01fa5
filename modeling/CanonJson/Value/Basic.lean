import CanonJson.Plain.Datum
/-!
# Value trees

A JSON document in memory. Numbers keep the text they were written with, and an object is a list of
members in order, so that repeated keys survive. A tree handed in from outside may hold an object
that is no JSON value; it is kept as a `foreign` node, and every operation that needs a value refuses
it.
-/

namespace CanonJson

inductive Value where
  | null
  | bool (b : Bool)
  | number (text : Text)
  | string (text : Text)
  | array (items : List Value)
  | object (members : List (Text × Value))
  | foreign (datum : Datum)

namespace Value

/-- The rank of a value's type: null, boolean, number, string, object, array. -/
def rank? : Value → Except Text Nat
  | .null => .ok 0
  | .bool _ => .ok 1
  | .number _ => .ok 2
  | .string _ => .ok 3
  | .object _ => .ok 4
  | .array _ => .ok 5
  | .foreign d => .error d.typeName

def lookup (key : Text) (members : List (Text × Value)) : Option Value :=
  (members.find? fun m => m.1 = key).map Prod.snd

/-- The value under a key, for those who ask from outside: an absent datum in its place is no value. -/
def get? (key : Text) (members : List (Text × Value)) : Option Value :=
  match lookup key members with
  | some (.foreign (.scalar .none)) => none
  | found => found

mutual

/-- The number of containers around the deepest point of a tree, empty containers included. -/
def depth : Value → Nat
  | .array items => itemsDepth items + 1
  | .object members => membersDepth members + 1
  | _ => 0

def itemsDepth : List Value → Nat
  | [] => 0
  | v :: vs => max (depth v) (itemsDepth vs)

def membersDepth : List (Text × Value) → Nat
  | [] => 0
  | (_, v) :: ms => max (depth v) (membersDepth ms)

end

mutual

/-- The work a tree stands for when it waits on a work list: enough for its node, for one step at its
end, and for the keys and separators between its children. -/
def weight : Value → Nat
  | .array items => itemsWeight items + 2
  | .object members => membersWeight members + 2
  | _ => 1

def itemsWeight : List Value → Nat
  | [] => 0
  | v :: vs => weight v + 1 + itemsWeight vs

def membersWeight : List (Text × Value) → Nat
  | [] => 0
  | (_, v) :: ms => weight v + 2 + membersWeight ms

end

theorem weight_pos (v : Value) : 0 < v.weight := by
  cases v <;> simp [weight]

end Value

end CanonJson
