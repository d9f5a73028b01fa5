import CanonJson.Proofs.Order.Arranged
import CanonJson.Value.Equivalence
/-!
# Canonical trees and equivalence

Sorting the members of an object forgets the order between members with different keys, and nothing
else: two objects are sorted into the same one exactly if they have the same values under each key, in
the same order. With arrays kept as they are, two trees therefore have the same canonical tree, up to a
spelling of their numbers, exactly if they are equivalent up to that spelling.
-/

namespace CanonJson

namespace Value

/-! ### Values under a key -/

theorem mem_under {key : Text} {members : List (Text × Value)} {v : Value} :
    v ∈ under key members ↔ (key, v) ∈ members := by
  simp [under]

theorem under_map (g : Value → Value) (key : Text) (members : List (Text × Value)) :
    under key (members.map fun m => (m.1, g m.2)) = (under key members).map g := by
  simp [under, List.filter_map, Function.comp_def]

theorem filter_eq_map_under (key : Text) (members : List (Text × Value)) :
    members.filter (fun m => m.1 = key) = (under key members).map (Prod.mk key) := by
  rw [under, List.map_map, List.map_congr_left (g := id), List.map_id]
  intro m hm
  have hkey : m.1 = key := by simpa using (List.mem_filter.mp hm).2
  rw [← hkey]
  rfl

/-! ### Lists of equivalent items -/

section Items

variable {same same' : Text → Text → Prop} {as bs : List Value}

theorem equivalentItems_of_map_eq {g : Value → Value} (h : as.map g = bs.map g)
    (hg : ∀ a ∈ as, ∀ b ∈ bs, g a = g b → Equivalent same a b) : EquivalentItems same as bs := by
  induction as generalizing bs with
  | nil =>
    obtain rfl : bs = [] := by simpa using h
    exact .nil
  | cons a as ih =>
    cases bs with
    | nil => simp at h
    | cons b bs =>
      rw [List.map_cons, List.map_cons, List.cons.injEq] at h
      refine .cons a b as bs (hg a (by simp) b (by simp) h.1) (ih h.2 ?_)
      intro a' ha' b' hb'
      exact hg a' (by simp [ha']) b' (by simp [hb'])

theorem map_eq_of_equivalentItems {g : Value → Value} (h : EquivalentItems same as bs)
    (hg : ∀ a ∈ as, ∀ b ∈ bs, Equivalent same a b → g a = g b) : as.map g = bs.map g := by
  induction as generalizing bs with
  | nil =>
    cases h
    rfl
  | cons a as ih =>
    cases h with
    | cons _ b _ bs first more =>
      rw [List.map_cons, List.map_cons, hg a (by simp) b (by simp) first, ih more]
      intro a' ha' b' hb'
      exact hg a' (by simp [ha']) b' (by simp [hb'])

theorem equivalentItems_mono (h : EquivalentItems same as bs)
    (hitem : ∀ a ∈ as, ∀ b ∈ bs, Equivalent same a b → Equivalent same' a b) :
    EquivalentItems same' as bs := by
  induction as generalizing bs with
  | nil =>
    cases h
    exact .nil
  | cons a as ih =>
    cases h with
    | cons _ b _ bs first more =>
      refine .cons a b as bs (hitem a (by simp) b (by simp) first) (ih more ?_)
      intro a' ha' b' hb'
      exact hitem a' (by simp [ha']) b' (by simp [hb'])

end Items

/-- Equivalence depends only on how number texts are compared. -/
theorem Equivalent.mono {same same' : Text → Text → Prop} {a b : Value} (h : Equivalent same a b)
    (ha : a.WellFormed) (hb : b.WellFormed)
    (hsame : ∀ s t, isNumeral s = true → isNumeral t = true → same s t → same' s t) :
    Equivalent same' a b := by
  induction a using childInduction generalizing b with
  | null =>
    cases h
    exact .null
  | bool b =>
    cases h
    exact .bool b
  | number s =>
    cases h with
    | number _ t h => exact .number s t (hsame s t ha hb h)
  | string t =>
    cases h
    exact .string t
  | array as ih =>
    cases h with
    | array _ bs h =>
      rw [wellFormed_array] at ha hb
      exact .array as bs (equivalentItems_mono h fun a hmem b hmem' h => ih a hmem h (ha a hmem) (hb b hmem'))
  | object as ih =>
    cases h with
    | object _ bs h =>
      rw [wellFormed_object] at ha hb
      refine .object as bs fun key => equivalentItems_mono (h key) ?_
      intro a hmem b hmem' h
      rw [mem_under] at hmem hmem'
      exact ih (key, a) hmem h (ha _ hmem).2 (hb _ hmem').2
  | foreign d => exact ha.elim

end Value

open Value

/-! ### Objects -/

theorem filter_arrangeMembers (o : SortOptions) (key : Text) (members : List (Text × Value)) :
    (arrangeMembers o members).filter (fun m => m.1 = key) = members.filter fun m => m.1 = key := by
  unfold arrangeMembers
  split
  · refine (totalOn_members o.keyOrder).filter_mergeSort (fun _ _ => trivial) ?_
    intro a _ b _ ha hb
    have hkeys : a.1 = b.1 := by
      rw [of_decide_eq_true ha, of_decide_eq_true hb]
    rw [hkeys]
    exact o.keyOrder.totalOn_le.refl trivial
  · rfl

/-- Objects are sorted into the same one exactly if they have the same values under each key. -/
theorem arrangeMembers_eq_iff {o : SortOptions} (ho : o.sortKeys = true)
    {as bs : List (Text × Value)} (has : ∀ m ∈ as, m.1.SurrogateFree)
    (hbs : ∀ m ∈ bs, m.1.SurrogateFree) :
    arrangeMembers o as = arrangeMembers o bs ↔ ∀ key, under key as = under key bs := by
  constructor
  · intro h key
    rw [under, ← filter_arrangeMembers o, h, filter_arrangeMembers o, ← under]
  · intro h
    refine @eq_of_filter_eq _ _ _ Prod.fst o.keyOrder.le _ _ ?_ (keysSorted_arrangeMembers o as ho)
      (keysSorted_arrangeMembers o bs ho) ?_
    · intro a ha b hb
      exact o.keyOrder.le_antisymm (has a ((arrangeMembers_perm o as).mem_iff.mp ha))
        (hbs b ((arrangeMembers_perm o bs).mem_iff.mp hb))
    · intro key
      rw [filter_arrangeMembers o, filter_arrangeMembers o, filter_eq_map_under,
        filter_eq_map_under, h key]

/-! ### Trees -/

section Trees

variable {o : SortOptions} {f : Text → Text} {a b : Value}

theorem mapNumbers_arranged_array (ho : o.arraysBy = none) (items : List Value) :
    (arranged o (.array items)).mapNumbers f
      = .array (items.map fun v => (arranged o v).mapNumbers f) := by
  rw [arranged_array, mapNumbers_array, arrangeItems, ho, List.map_map]
  rfl

theorem mapNumbers_arranged_object (members : List (Text × Value)) :
    (arranged o (.object members)).mapNumbers f
      = .object (arrangeMembers o (members.map fun m => (m.1, (arranged o m.2).mapNumbers f))) := by
  rw [arranged_object, mapNumbers_object, ← arrangeMembers_map, List.map_map]
  rfl

theorem arrangeMembers_map_eq_iff (hsort : o.sortKeys = true) {as bs : List (Text × Value)}
    (has : (object as).WellFormed) (hbs : (object bs).WellFormed) (g : Value → Value) :
    arrangeMembers o (as.map fun m => (m.1, g m.2)) = arrangeMembers o (bs.map fun m => (m.1, g m.2))
      ↔ ∀ key, (under key as).map g = (under key bs).map g := by
  have hkeys : ∀ {members : List (Text × Value)}, (object members).WellFormed →
      ∀ n ∈ members.map fun m => (m.1, g m.2), n.1.SurrogateFree := by
    intro members h n hn
    obtain ⟨m, hm, rfl⟩ := List.mem_map.mp hn
    exact (wellFormed_object.mp h m hm).1
  rw [arrangeMembers_eq_iff hsort (hkeys has) (hkeys hbs)]
  simp only [under_map]

theorem equivalent_of_arranged_eq (hsort : o.sortKeys = true) (ho : o.arraysBy = none)
    (ha : a.WellFormed) (hb : b.WellFormed)
    (h : (arranged o a).mapNumbers f = (arranged o b).mapNumbers f) :
    Equivalent (fun s t => f s = f t) a b := by
  induction a using childInduction generalizing b with
  | null =>
    cases b <;> simp at h
    exact .null
  | bool x =>
    cases b <;> simp at h
    rw [h]
    exact .bool _
  | number s =>
    cases b <;> simp at h
    exact .number _ _ h
  | string s =>
    cases b <;> simp at h
    rw [h]
    exact .string _
  | array as ih =>
    cases b with
    | array bs =>
      rw [mapNumbers_arranged_array ho, mapNumbers_arranged_array ho, Value.array.injEq] at h
      rw [wellFormed_array] at ha hb
      refine .array as bs (equivalentItems_of_map_eq h ?_)
      intro a hmem b hmem' h
      exact ih a hmem (ha a hmem) (hb b hmem') h
    | _ => simp at h
  | object as ih =>
    cases b with
    | object bs =>
      rw [mapNumbers_arranged_object, mapNumbers_arranged_object, Value.object.injEq] at h
      have hunder := (arrangeMembers_map_eq_iff hsort ha hb fun v => (arranged o v).mapNumbers f).mp h
      rw [wellFormed_object] at ha hb
      refine .object as bs fun key => equivalentItems_of_map_eq (hunder key) ?_
      intro a hmem b hmem' h
      rw [mem_under] at hmem hmem'
      exact ih (key, a) hmem (ha _ hmem).2 (hb _ hmem').2 h
    | _ => simp at h
  | foreign d => exact ha.elim

/-- Equivalent trees have the same form under a function that sorts the members of each object by key and makes
each array from the forms of its items. -/
theorem form_eq_of_equivalent {same : Text → Text → Prop} {form : Value → Value} {close : List Value → Value}
    (hsort : o.sortKeys = true)
    (hnumber : ∀ s t, same s t → form (.number s) = form (.number t))
    (harray : ∀ items, form (.array items) = close (items.map form))
    (hobject : ∀ members,
      form (.object members) = .object (arrangeMembers o (members.map fun m => (m.1, form m.2))))
    (ha : a.WellFormed) (hb : b.WellFormed) (h : Equivalent same a b) : form a = form b := by
  induction a using childInduction generalizing b with
  | null =>
    cases h
    rfl
  | bool x =>
    cases h
    rfl
  | number s =>
    cases h with
    | number _ t h => exact hnumber s t h
  | string s =>
    cases h
    rfl
  | array as ih =>
    cases h with
    | array _ bs h =>
      rw [wellFormed_array] at ha hb
      rw [harray, harray, map_eq_of_equivalentItems h]
      intro a hmem b hmem' h
      exact ih a hmem (ha a hmem) (hb b hmem') h
  | object as ih =>
    cases h with
    | object _ bs h =>
      rw [hobject, hobject, Value.object.injEq]
      refine (arrangeMembers_map_eq_iff hsort ha hb form).mpr fun key => map_eq_of_equivalentItems (h key) ?_
      intro a hmem b hmem' h
      rw [wellFormed_object] at ha hb
      rw [mem_under] at hmem hmem'
      exact ih (key, a) hmem (ha _ hmem).2 (hb _ hmem').2 h
  | foreign d => exact ha.elim

theorem arranged_eq_of_equivalent (hsort : o.sortKeys = true) (ho : o.arraysBy = none)
    (ha : a.WellFormed) (hb : b.WellFormed) (h : Equivalent (fun s t => f s = f t) a b) :
    (arranged o a).mapNumbers f = (arranged o b).mapNumbers f := by
  refine @form_eq_of_equivalent o a b _ (fun v => (arranged o v).mapNumbers f) Value.array hsort ?_
    (mapNumbers_arranged_array ho) mapNumbers_arranged_object ha hb h
  intro s t hst
  simp [hst]

/-- Trees have the same canonical tree, with their numbers spelled by a function, exactly if they are
equivalent up to that spelling. -/
theorem arranged_eq_iff_equivalent (hsort : o.sortKeys = true) (ho : o.arraysBy = none)
    (ha : a.WellFormed) (hb : b.WellFormed) :
    (arranged o a).mapNumbers f = (arranged o b).mapNumbers f
      ↔ Equivalent (fun s t => f s = f t) a b :=
  ⟨equivalent_of_arranged_eq hsort ho ha hb, arranged_eq_of_equivalent hsort ho ha hb⟩

end Trees

end CanonJson
