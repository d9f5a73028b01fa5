import CanonJson.Proofs.Value.Renumber
/-!
# Nodes of a tree

Statements about every number, every string or every array of a tree, at any depth, speak of the trees that
occur in it: the tree itself, and what occurs in its children.
-/

namespace CanonJson.Value

/-- The tree stands at some node of another. -/
inductive Occurs (u : Value) : Value → Prop where
  | self : Occurs u u
  | item {items : List Value} {v : Value} (hv : v ∈ items) (h : Occurs u v) : Occurs u (.array items)
  | member {members : List (Text × Value)} {m : Text × Value} (hm : m ∈ members) (h : Occurs u m.2) :
      Occurs u (.object members)

theorem Occurs.trans {u v w : Value} (huv : Occurs u v) (hvw : Occurs v w) : Occurs u w := by
  induction hvw with
  | self => exact huv
  | item hmem _ ih => exact .item hmem ih
  | member hm _ ih => exact .member hm ih

theorem WellFormed.of_occurs {u v : Value} (hv : v.WellFormed) (h : Occurs u v) : u.WellFormed := by
  induction h with
  | self => exact hv
  | item hmem _ ih => exact ih (wellFormed_array.mp hv _ hmem)
  | member hm _ ih => exact ih (wellFormed_object.mp hv _ hm).2

section Numbers

variable {f : Text → Text}

theorem mapNumbers_eq_self {v : Value} (h : ∀ t, Occurs (.number t) v → f t = t) :
    v.mapNumbers f = v := by
  induction v using childInduction with
  | null => simp
  | bool b => simp
  | number t => rw [mapNumbers_number, h t .self]
  | string t => simp
  | array items ih =>
    rw [mapNumbers_array, List.map_congr_left (g := id), List.map_id]
    intro v hv
    exact ih v hv fun t ht => h t (.item hv ht)
  | object members ih =>
    rw [mapNumbers_object, List.map_congr_left (g := id), List.map_id]
    intro m hm
    rw [ih m hm fun t ht => h t (.member hm ht)]
    rfl
  | foreign d => simp

theorem Occurs.mapNumbers {u v : Value} (h : Occurs u v) :
    Occurs (u.mapNumbers f) (v.mapNumbers f) := by
  induction h with
  | self => exact .self
  | item hv _ ih =>
    rw [mapNumbers_array]
    exact .item (List.mem_map_of_mem hv) ih
  | member hm _ ih =>
    rw [mapNumbers_object]
    exact .member (List.mem_map_of_mem hm) ih

theorem exists_of_occurs_mapNumbers {u v : Value} (h : Occurs u (v.mapNumbers f)) :
    ∃ w, Occurs w v ∧ w.mapNumbers f = u := by
  induction v using childInduction with
  | null => exact ⟨_, .self, by cases h; rfl⟩
  | bool b => exact ⟨_, .self, by cases h; rfl⟩
  | number t => exact ⟨_, .self, by cases h; rfl⟩
  | string t => exact ⟨_, .self, by cases h; rfl⟩
  | array items ih =>
    rw [mapNumbers_array] at h
    cases h with
    | self => exact ⟨_, .self, mapNumbers_array items⟩
    | item hv h =>
      obtain ⟨v, hmem, rfl⟩ := List.mem_map.mp hv
      obtain ⟨w, hw, hwu⟩ := ih v hmem h
      exact ⟨w, .item hmem hw, hwu⟩
  | object members ih =>
    rw [mapNumbers_object] at h
    cases h with
    | self => exact ⟨_, .self, mapNumbers_object members⟩
    | member hm h =>
      obtain ⟨m, hmem, rfl⟩ := List.mem_map.mp hm
      obtain ⟨w, hw, hwu⟩ := ih m hmem h
      exact ⟨w, .member hmem hw, hwu⟩
  | foreign d => exact ⟨_, .self, by cases h; rfl⟩

end Numbers

end CanonJson.Value
