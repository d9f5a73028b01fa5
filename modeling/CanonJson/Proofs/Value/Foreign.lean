import CanonJson.Problem
import CanonJson.Proofs.Value.Occurs
import CanonJson.Proofs.Value.Walk
/-!
# Objects that are no values

A tree from outside may hold objects that are no values. They are listed here in document order, and an algebra
that refuses them is followed through the recursion: as long as it has a result for every part of the tree without
such objects, the first of them is what it fails on, wherever it stands (`fold_of_foreign`). What comes of a tree
without them is told from what comes of its leaves and of its containers (`givesOrFails_fold`).
-/

namespace CanonJson

namespace Value

mutual

/-- The objects of a tree that are no values, in document order. -/
def foreigns : Value → List Datum
  | .array items => itemsForeigns items
  | .object members => membersForeigns members
  | .foreign d => [d]
  | _ => []

def itemsForeigns : List Value → List Datum
  | [] => []
  | v :: vs => foreigns v ++ itemsForeigns vs

def membersForeigns : List (Text × Value) → List Datum
  | [] => []
  | (_, v) :: ms => foreigns v ++ membersForeigns ms

end

theorem foreigns_array (items : List Value) : (array items).foreigns = items.flatMap foreigns := by
  rw [foreigns]
  induction items with
  | nil => rfl
  | cons v vs ih => rw [itemsForeigns, ih, List.flatMap_cons]

theorem foreigns_object (members : List (Text × Value)) :
    (object members).foreigns = members.flatMap fun m => m.2.foreigns := by
  rw [foreigns]
  induction members with
  | nil => rfl
  | cons m ms ih => rw [membersForeigns, ih, List.flatMap_cons]

theorem foreigns_array_eq_nil {items : List Value} :
    (array items).foreigns = [] ↔ ∀ v ∈ items, v.foreigns = [] := by
  rw [foreigns_array, List.flatMap_eq_nil_iff]

theorem foreigns_object_eq_nil {members : List (Text × Value)} :
    (object members).foreigns = [] ↔ ∀ m ∈ members, m.2.foreigns = [] := by
  rw [foreigns_object, List.flatMap_eq_nil_iff]

theorem not_occurs_foreign {v : Value} (h : v.foreigns = []) (d : Datum) : ¬ Occurs (.foreign d) v := by
  intro hoccurs
  induction hoccurs with
  | self => cases h
  | item hv _ ih => exact ih (foreigns_array_eq_nil.mp h _ hv)
  | member hm _ ih => exact ih (foreigns_object_eq_nil.mp h _ hm)

/-- The tree stands for a document except for objects that are no values. -/
structure WellFormedApart (v : Value) : Prop where
  numbers (t : Text) (h : Occurs (.number t) v) : isNumeral t = true
  strings (t : Text) (h : Occurs (.string t) v) : t.SurrogateFree
  keys (members : List (Text × Value)) (h : Occurs (.object members) v) : ∀ m ∈ members, m.1.SurrogateFree

theorem WellFormedApart.of_occurs {u v : Value} (hv : v.WellFormedApart) (h : Occurs u v) : u.WellFormedApart where
  numbers t ht := hv.numbers t (ht.trans h)
  strings t ht := hv.strings t (ht.trans h)
  keys members hmembers := hv.keys members (hmembers.trans h)

theorem WellFormed.apart {v : Value} (hv : v.WellFormed) : v.WellFormedApart where
  numbers _ ht := hv.of_occurs ht
  strings _ ht := hv.of_occurs ht
  keys _ hmembers m hm := (wellFormed_object.mp (hv.of_occurs hmembers) m hm).1

theorem wellFormedApart_foreign (d : Datum) : (foreign d).WellFormedApart where
  numbers t ht := by cases ht
  strings t ht := by cases ht
  keys members hmembers := by cases hmembers

theorem wellFormedApart_array {items : List Value} :
    (array items).WellFormedApart ↔ ∀ v ∈ items, v.WellFormedApart := by
  refine ⟨fun h v hv => h.of_occurs (.item hv .self), fun h => ⟨?_, ?_, ?_⟩⟩
  · rintro t (_ | ⟨hv, ht⟩)
    exact (h _ hv).numbers t ht
  · rintro t (_ | ⟨hv, ht⟩)
    exact (h _ hv).strings t ht
  · rintro members (_ | ⟨hv, hmembers⟩)
    exact (h _ hv).keys members hmembers

theorem wellFormedApart_object {members : List (Text × Value)} :
    (object members).WellFormedApart ↔ ∀ m ∈ members, m.1.SurrogateFree ∧ m.2.WellFormedApart := by
  refine ⟨fun h m hm => ⟨h.keys members .self m hm, h.of_occurs (.member hm .self)⟩, fun h => ⟨?_, ?_, ?_⟩⟩
  · rintro t (_ | _ | ⟨hm, ht⟩)
    exact (h _ hm).2.numbers t ht
  · rintro t (_ | _ | ⟨hm, ht⟩)
    exact (h _ hm).2.strings t ht
  · rintro members' (_ | _ | ⟨hm, hmembers⟩)
    · exact fun m hm => (h m hm).1
    · exact (h _ hm).2.keys members' hmembers

theorem WellFormedApart.wellFormed {v : Value} (hv : v.WellFormedApart) (h : v.foreigns = []) : v.WellFormed := by
  induction v using childInduction with
  | null => trivial
  | bool b => trivial
  | number t => exact hv.numbers t .self
  | string t => exact hv.strings t .self
  | array items ih =>
    exact wellFormed_array.mpr fun v hmem =>
      ih v hmem (hv.of_occurs (.item hmem .self)) (foreigns_array_eq_nil.mp h v hmem)
  | object members ih =>
    exact wellFormed_object.mpr fun m hm => ⟨hv.keys members .self m hm,
      ih m hm (hv.of_occurs (.member hm .self)) (foreigns_object_eq_nil.mp h m hm)⟩
  | foreign d => cases h

end Value

namespace Algebra

open Value (Occurs foreigns foreigns_array foreigns_object foreigns_array_eq_nil foreigns_object_eq_nil)

/-! ### The first foreign object -/

section First

variable {α : Type} (alg : Algebra Problem α)

theorem foldItems_of_foreign {items : List Value} {d : Datum}
    (hclean : ∀ v ∈ items, v.foreigns = [] → ∃ a, alg.fold v = .ok a)
    (hfirst : ∀ v ∈ items, v.foreigns.head? = some d → alg.fold v = .error (.foreignNode d.typeName))
    (hd : (items.flatMap foreigns).head? = some d) : alg.foldItems items = .error (.foreignNode d.typeName) := by
  induction items with
  | nil => cases hd
  | cons v vs ih =>
    obtain ⟨hv, hvs⟩ := List.forall_mem_cons.mp hclean
    obtain ⟨hv', hvs'⟩ := List.forall_mem_cons.mp hfirst
    rw [List.flatMap_cons, List.head?_append] at hd
    rw [foldItems]
    cases hforeigns : v.foreigns with
    | nil =>
      obtain ⟨a, ha⟩ := hv hforeigns
      rw [hforeigns] at hd
      rw [ha, ok_bind, ih hvs hvs' hd]
      rfl
    | cons e es =>
      rw [hforeigns] at hd
      rw [hv' (by rw [hforeigns]; exact hd)]
      rfl

/-- An algebra with a result for every part without foreign objects fails on the first of them. -/
theorem fold_of_foreign (hleaf : ∀ d, alg.leaf (.foreign d) = .error (.foreignNode d.typeName)) {v : Value}
    (hclean : ∀ u, Occurs u v → u.foreigns = [] → ∃ a, alg.fold u = .ok a) {d : Datum}
    (hd : v.foreigns.head? = some d) : alg.fold v = .error (.foreignNode d.typeName) := by
  induction v using Value.childInduction with
  | array items ih =>
    rw [foreigns_array] at hd
    rw [fold, foldItems_of_foreign alg (fun v hv => hclean v (.item hv .self))
      (fun v hv => ih v hv fun u hu => hclean u (.item hv hu)) hd]
    rfl
  | object members ih =>
    have hvalues : ((members.map Prod.snd).flatMap foreigns).head? = some d := by
      rwa [foreigns_object, ← List.flatMap_map] at hd
    have hfold : alg.foldItems (members.map Prod.snd) = .error (.foreignNode d.typeName) := by
      refine foldItems_of_foreign alg ?_ ?_ hvalues
      · intro v hv
        obtain ⟨m, hm, rfl⟩ := List.mem_map.mp hv
        exact hclean m.2 (.member hm .self)
      · intro v hv
        obtain ⟨m, hm, rfl⟩ := List.mem_map.mp hv
        exact ih m hm fun u hu => hclean u (.member hm hu)
    rw [fold, foldMembers_eq, hfold]
    rfl
  | foreign e =>
    obtain rfl := Option.some.inj hd
    exact hleaf e
  | _ => cases hd

end First

/-! ### No foreign object -/

section Clean

variable {ε α : Type} {alg : Algebra ε α} {R : α → Prop} {Q : ε → Prop}

/-- What holds of everything that an algebra makes of leaves and of containers with such results holds of what it makes
of a tree, and the same for its problems. -/
theorem givesOrFails_fold (hleaf : ∀ v, v.foreigns = [] → GivesOrFails R Q (alg.leaf v))
    (harray : ∀ as, (∀ a ∈ as, R a) → GivesOrFails R Q (alg.array as))
    (hobject : ∀ as : List (Text × α), (∀ a ∈ as, R a.2) → GivesOrFails R Q (alg.object as)) {v : Value}
    (h : v.foreigns = []) : GivesOrFails R Q (alg.fold v) := by
  have hitems : ∀ items : List Value, (∀ v ∈ items, GivesOrFails R Q (alg.fold v)) →
      GivesOrFails (fun as => ∀ a ∈ as, R a) Q (alg.foldItems items) := by
    intro items hfold
    induction items with
    | nil => exact List.forall_mem_nil R
    | cons v vs ih =>
      obtain ⟨hv, hvs⟩ := List.forall_mem_cons.mp hfold
      rw [foldItems]
      exact hv.bind fun a ha => (ih hvs).bind fun as has => List.forall_mem_cons.mpr ⟨ha, has⟩
  induction v using Value.childInduction with
  | array items ih =>
    rw [fold]
    exact (hitems items fun v hv => ih v hv (foreigns_array_eq_nil.mp h v hv)).bind harray
  | object members ih =>
    have hvalues := hitems (members.map Prod.snd) fun v hv => by
      obtain ⟨m, hm, rfl⟩ := List.mem_map.mp hv
      exact ih m hm (foreigns_object_eq_nil.mp h m hm)
    rw [fold, foldMembers_eq]
    cases hfold : alg.foldItems (members.map Prod.snd) with
    | error e =>
      rw [hfold] at hvalues
      exact hvalues
    | ok as =>
      rw [hfold] at hvalues
      refine hobject _ fun a ha => hvalues a.2 ?_
      exact (List.of_mem_zip ha).2
  | foreign d => cases h
  | null => exact hleaf .null h
  | bool b => exact hleaf (.bool b) h
  | number t => exact hleaf (.number t) h
  | string t => exact hleaf (.string t) h

end Clean

end Algebra

end CanonJson
