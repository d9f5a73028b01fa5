import CanonJson.Proofs.Value.Tree
/-!
# Trees with other number texts

Printing may spell the numbers of a tree in another way. `mapNumbers` is what remains of the tree: the
same nodes in the same order, with a function applied to each number text.
-/

namespace CanonJson.Value

mutual

/-- The tree with a function applied to each number text. -/
def mapNumbers (f : Text → Text) : Value → Value
  | .number t => .number (f t)
  | .array items => .array (mapItems f items)
  | .object members => .object (mapMembers f members)
  | v => v

def mapItems (f : Text → Text) : List Value → List Value
  | [] => []
  | v :: vs => mapNumbers f v :: mapItems f vs

def mapMembers (f : Text → Text) : List (Text × Value) → List (Text × Value)
  | [] => []
  | (k, v) :: ms => (k, mapNumbers f v) :: mapMembers f ms

end

variable {f : Text → Text}

theorem mapItems_eq_map (f : Text → Text) (items : List Value) :
    mapItems f items = items.map (mapNumbers f) := by
  induction items with
  | nil => rfl
  | cons v vs ih => rw [mapItems, ih, List.map_cons]

theorem mapMembers_eq_map (f : Text → Text) (members : List (Text × Value)) :
    mapMembers f members = members.map fun m => (m.1, m.2.mapNumbers f) := by
  induction members with
  | nil => rfl
  | cons m ms ih => rw [mapMembers, ih, List.map_cons]

@[simp] theorem mapNumbers_null : mapNumbers f .null = .null := by
  rw [mapNumbers] <;> simp

@[simp] theorem mapNumbers_bool (b : Bool) : mapNumbers f (.bool b) = .bool b := by
  rw [mapNumbers] <;> simp

@[simp] theorem mapNumbers_number (t : Text) : mapNumbers f (.number t) = .number (f t) := by
  rw [mapNumbers]

@[simp] theorem mapNumbers_string (t : Text) : mapNumbers f (.string t) = .string t := by
  rw [mapNumbers] <;> simp

@[simp] theorem mapNumbers_foreign (d : Datum) : mapNumbers f (.foreign d) = .foreign d := by
  rw [mapNumbers] <;> simp

@[simp] theorem mapNumbers_array (items : List Value) :
    mapNumbers f (.array items) = .array (items.map (mapNumbers f)) := by
  rw [mapNumbers, mapItems_eq_map]

@[simp] theorem mapNumbers_object (members : List (Text × Value)) :
    mapNumbers f (.object members) = .object (members.map fun m => (m.1, m.2.mapNumbers f)) := by
  rw [mapNumbers, mapMembers_eq_map]

theorem mapNumbers_id (v : Value) : v.mapNumbers (fun t => t) = v := by
  induction v using childInduction with
  | null => simp
  | bool b => simp
  | number t => simp
  | string t => simp
  | array items ih => rw [mapNumbers_array, List.map_congr_left (g := id) ih, List.map_id]
  | object members ih =>
    rw [mapNumbers_object, List.map_congr_left (g := id), List.map_id]
    intro m hm
    rw [ih m hm]
    rfl
  | foreign d => simp

theorem depth_mapNumbers_le (v : Value) : (v.mapNumbers f).depth ≤ v.depth := by
  induction v using childInduction with
  | null => simp
  | bool b => simp
  | number t => simp [depth]
  | string t => simp
  | array items ih =>
    rw [mapNumbers_array, depth, depth, Nat.add_le_add_iff_right, itemsDepth_le_iff]
    intro u hu
    obtain ⟨v, hv, rfl⟩ := List.mem_map.mp hu
    exact Nat.le_trans (ih v hv) (itemsDepth_le_iff.mp (Nat.le_refl _) v hv)
  | object members ih =>
    rw [mapNumbers_object, depth, depth, Nat.add_le_add_iff_right, membersDepth_le_iff]
    intro u hu
    obtain ⟨m, hm, rfl⟩ := List.mem_map.mp hu
    exact Nat.le_trans (ih m hm) (membersDepth_le_iff.mp (Nat.le_refl _) m hm)
  | foreign d => simp

end CanonJson.Value
