import CanonJson.Order.Key
import CanonJson.Value.Token
import CanonJson.Value.Walk
/-!
# Canonical order

Members are sorted by key and, if an option says so, arrays by the value of a member. Both sorts are
stable: members with equal keys and items with equal sort keys keep their order. Scalars are left as
they are.
-/

namespace CanonJson

/-- Sorts by keys that are computed for all elements before any two are compared. -/
def sortByKey {α κ ε : Type} (key : α → Except ε κ) (le : κ → κ → Bool) (l : List α) :
    Except ε (List α) := do
  let keyed ← l.mapM fun a => do return (← key a, a)
  return (keyed.mergeSort fun a b => le a.1 b.1).map Prod.snd

def sortMembers (o : SortOptions) (members : List (Text × Value)) : Except Problem (List (Text × Value)) :=
  if o.sortKeys then sortByKey (fun m => memberKey o.keyOrder m.1) (lexLe id) members else .ok members

def sortItems (o : SortOptions) (items : List Value) : Except Problem (List Value) :=
  match o.arraysBy with
  | some member => sortByKey (ElementKey.ofItem member) ElementKey.le items
  | none => .ok items

/-- What becomes of each node, its children being in order already. -/
def canonicalAlgebra (o : SortOptions) : Algebra Problem Value where
  leaf
    | .foreign d => .error (.foreignNode d.typeName)
    | v => .ok v
  array items := do return .array (← sortItems o items)
  object members := do return .object (← sortMembers o members)

/-- The tree in canonical order. -/
def canonicalize (o : SortOptions) (v : Value) : Except Problem Value :=
  (canonicalAlgebra o).walk v

def isCanonical (o : SortOptions) (v : Value) : Except Problem Bool := do
  match (← canonicalize o v).equal? v with
  | .ok verdict => return verdict
  | .error reason => throw (.incomparable reason)

end CanonJson
