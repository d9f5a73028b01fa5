import CanonJson.Value.Basic
/-!
# Token streams

A tree flattened depth first. Containers announce the number of their children, so the stream
determines the tree and no stream is the beginning of another; two trees are compared by comparing
their streams.
-/

namespace CanonJson

/-- One step of a flattened tree. -/
inductive Token where
  | null
  | bool (b : Bool)
  | number (text : Text)
  | string (text : Text)
  | array (length : Nat)
  | object (length : Nat)
  | key (text : Text)
  | foreign (datum : Datum)

namespace Token

/-- Whether two tokens are equal, unless foreign data refuse to be compared. -/
def same? : Token → Token → Except Incomparable Bool
  | .null, .null => .ok true
  | .bool a, .bool b => .ok (a == b)
  | .number a, .number b => .ok (a == b)
  | .string a, .string b => .ok (a == b)
  | .array a, .array b => .ok (a == b)
  | .object a, .object b => .ok (a == b)
  | .key a, .key b => .ok (a == b)
  | .foreign a, .foreign b => a.same? b
  | _, _ => .ok false

/-- Whether two streams are equal token by token, up to the first difference. -/
def sameStream? : List Token → List Token → Except Incomparable Bool
  | [], [] => .ok true
  | a :: as, b :: bs =>
    match a.same? b with
    | .ok true => sameStream? as bs
    | verdict => verdict
  | _, _ => .ok false

end Token

namespace Value

/-- What is left to flatten: a tree, or the key of a member. -/
inductive Pending where
  | key (text : Text)
  | node (v : Value)

def Pending.weight : Pending → Nat
  | .key _ => 1
  | .node v => v.weight

def pendingWeight : List Pending → Nat
  | [] => 0
  | x :: xs => x.weight + pendingWeight xs

def pendingItems (items : List Value) : List Pending :=
  items.map .node

/-- The members of an object as pending pieces, each key before its value. -/
def pendingMembers (members : List (Text × Value)) : List Pending :=
  members.flatMap fun m => [.key m.1, .node m.2]

theorem pendingWeight_append (ps qs : List Pending) :
    pendingWeight (ps ++ qs) = pendingWeight ps + pendingWeight qs := by
  induction ps with
  | nil => simp [pendingWeight]
  | cons x xs ih =>
    simp only [List.cons_append, pendingWeight, ih]
    omega

theorem pendingWeight_items_lt (items : List Value) :
    pendingWeight (pendingItems items) < (Value.array items).weight := by
  have h : pendingWeight (pendingItems items) ≤ itemsWeight items := by
    induction items with
    | nil => simp [pendingWeight, pendingItems, itemsWeight]
    | cons v vs ih =>
      simp only [pendingWeight, pendingItems, List.map_cons, Pending.weight,
        itemsWeight] at ih ⊢
      omega
  rw [weight]
  omega

theorem pendingWeight_members_lt (members : List (Text × Value)) :
    pendingWeight (pendingMembers members) < (Value.object members).weight := by
  have h : pendingWeight (pendingMembers members) ≤ membersWeight members := by
    induction members with
    | nil => simp [pendingWeight, pendingMembers, membersWeight]
    | cons m ms ih =>
      simp only [pendingWeight, pendingMembers, List.flatMap_cons, List.cons_append,
        List.nil_append, Pending.weight, membersWeight] at ih ⊢
      omega
  rw [weight]
  omega

/-- Flattens what is pending behind `acc`, which is kept in reverse. -/
def flatten (ps : List Pending) (acc : List Token) : List Token :=
  match ps with
  | [] => acc.reverse
  | .key k :: ps => flatten ps (.key k :: acc)
  | .node .null :: ps => flatten ps (.null :: acc)
  | .node (.bool b) :: ps => flatten ps (.bool b :: acc)
  | .node (.number t) :: ps => flatten ps (.number t :: acc)
  | .node (.string t) :: ps => flatten ps (.string t :: acc)
  | .node (.foreign d) :: ps => flatten ps (.foreign d :: acc)
  | .node (.array items) :: ps => flatten (pendingItems items ++ ps) (.array items.length :: acc)
  | .node (.object members) :: ps =>
    flatten (pendingMembers members ++ ps) (.object members.length :: acc)
termination_by pendingWeight ps
decreasing_by
  · simp [pendingWeight, Pending.weight]
  · simp [pendingWeight, Pending.weight, weight]
  · simp [pendingWeight, Pending.weight, weight]
  · simp [pendingWeight, Pending.weight, weight]
  · simp [pendingWeight, Pending.weight, weight]
  · simp [pendingWeight, Pending.weight, weight]
  · have := pendingWeight_items_lt items
    rw [pendingWeight_append]
    simp only [pendingWeight, Pending.weight] at this ⊢
    omega
  · have := pendingWeight_members_lt members
    rw [pendingWeight_append]
    simp only [pendingWeight, Pending.weight] at this ⊢
    omega

def tokens (v : Value) : List Token :=
  flatten [.node v] []

/-- Whether two trees have the same token stream. -/
def treeEqual? (a b : Value) : Except Incomparable Bool :=
  Token.sameStream? a.tokens b.tokens

/-- Whether two values are equal: the same kind of node with equal contents. -/
def equal? : Value → Value → Except Incomparable Bool
  | .null, .null => .ok true
  | .bool a, .bool b => .ok (a == b)
  | .number a, .number b => .ok (a == b)
  | .string a, .string b => .ok (a == b)
  | .array a, .array b => treeEqual? (.array a) (.array b)
  | .object a, .object b => treeEqual? (.object a) (.object b)
  | .foreign a, .foreign b => a.same? b
  | _, _ => .ok false

/-- What keeps a tree from having a hash value, if a foreign node brings it in. -/
def unhashable? (v : Value) : Option Datum.LookupRefusal :=
  v.tokens.findSome? fun
    | .foreign d => d.unhashable?
    | _ => none

end Value

end CanonJson
