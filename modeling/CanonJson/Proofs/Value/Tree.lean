import CanonJson.Value.WellFormed
/-!
# Trees by their children

The measures and predicates on trees recurse through lists of items and of members. Here each of them is
put as a statement about every child, so that a proof about a tree is an induction with one case for
each kind of node and a hypothesis for each child.
-/

namespace CanonJson.Value

/-- Induction on a tree, with the property at hand for each child of a container. -/
@[elab_as_elim]
theorem childInduction {motive : Value → Prop} (null : motive .null)
    (bool : ∀ b, motive (.bool b)) (number : ∀ t, motive (.number t))
    (string : ∀ t, motive (.string t))
    (array : ∀ items : List Value, (∀ v ∈ items, motive v) → motive (.array items))
    (object : ∀ members : List (Text × Value), (∀ m ∈ members, motive m.2) → motive (.object members))
    (foreign : ∀ d, motive (.foreign d)) (v : Value) : motive v := by
  refine @Value.rec motive (fun items => ∀ v ∈ items, motive v) (fun members => ∀ m ∈ members, motive m.2)
    (fun m => motive m.2) null bool number string array object foreign ?_ ?_ ?_ ?_ ?_ v
  · simp
  · intro v vs hv hvs u hu
    rcases List.mem_cons.mp hu with rfl | hu
    · exact hv
    · exact hvs u hu
  · simp
  · intro m ms hm hms n hn
    rcases List.mem_cons.mp hn with rfl | hn
    · exact hm
    · exact hms n hn
  · intro k v hv
    exact hv

/-! ### Depth -/

theorem itemsDepth_le_iff {items : List Value} {n : Nat} :
    itemsDepth items ≤ n ↔ ∀ v ∈ items, v.depth ≤ n := by
  induction items with
  | nil => simp [itemsDepth]
  | cons v vs ih => rw [itemsDepth, Nat.max_le, ih, List.forall_mem_cons]

theorem membersDepth_le_iff {members : List (Text × Value)} {n : Nat} :
    membersDepth members ≤ n ↔ ∀ m ∈ members, m.2.depth ≤ n := by
  induction members with
  | nil => simp [membersDepth]
  | cons m ms ih => rw [membersDepth, Nat.max_le, ih, List.forall_mem_cons]

/-! ### Well-formedness -/

theorem itemsWellFormed_iff {items : List Value} :
    ItemsWellFormed items ↔ ∀ v ∈ items, v.WellFormed := by
  induction items with
  | nil => simp [ItemsWellFormed]
  | cons v vs ih => simp [ItemsWellFormed, ih]

theorem membersWellFormed_iff {members : List (Text × Value)} :
    MembersWellFormed members ↔ ∀ m ∈ members, m.1.SurrogateFree ∧ m.2.WellFormed := by
  induction members with
  | nil => simp [MembersWellFormed]
  | cons m ms ih => simp [MembersWellFormed, ih, and_assoc]

theorem wellFormed_array {items : List Value} :
    (array items).WellFormed ↔ ∀ v ∈ items, v.WellFormed := by
  rw [WellFormed, itemsWellFormed_iff]

theorem wellFormed_object {members : List (Text × Value)} :
    (object members).WellFormed ↔ ∀ m ∈ members, m.1.SurrogateFree ∧ m.2.WellFormed := by
  rw [WellFormed, membersWellFormed_iff]

end CanonJson.Value
