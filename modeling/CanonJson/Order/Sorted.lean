import CanonJson.Order.Key
/-!
# Sortedness

What canonical order means, stated on the tree and without any sorting: at every level the keys do not
descend and, where arrays are sorted by a member, neither do the items.
-/

namespace CanonJson

/-- The first key comes no later than the second: by code points, or by UTF-16 code units. -/
def KeyOrder.le : KeyOrder → Text → Text → Bool
  | .codePoint, a, b => lexLe CodePoint.val a b
  | .utf16, a, b => lexLe id (Utf16.units a) (Utf16.units b)

/-- The first item comes no later than the second; items without a sort key are not compared. -/
def ItemLe (member : Text) (a b : Value) : Prop :=
  ∀ ka kb, ElementKey.ofItem member a = .ok ka → ElementKey.ofItem member b = .ok kb → ka.le kb = true

/-- The keys of an object do not descend, if they are sorted at all. -/
def KeysSorted (o : SortOptions) (members : List (Text × Value)) : Prop :=
  o.sortKeys = true → members.Pairwise fun a b => o.keyOrder.le a.1 b.1 = true

/-- The items of an array do not descend, if they are sorted at all. -/
def ItemsSorted (o : SortOptions) (items : List Value) : Prop :=
  ∀ member, o.arraysBy = some member → items.Pairwise (ItemLe member)

mutual

/-- The tree is sorted at every level. -/
def SortedEverywhere (o : SortOptions) : Value → Prop
  | .array items => ItemsSorted o items ∧ AllSorted o items
  | .object members => KeysSorted o members ∧ AllMembersSorted o members
  | _ => True

def AllSorted (o : SortOptions) : List Value → Prop
  | [] => True
  | v :: vs => SortedEverywhere o v ∧ AllSorted o vs

def AllMembersSorted (o : SortOptions) : List (Text × Value) → Prop
  | [] => True
  | (_, v) :: ms => SortedEverywhere o v ∧ AllMembersSorted o ms

end

end CanonJson
