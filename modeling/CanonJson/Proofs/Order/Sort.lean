import CanonJson.Order.Canonical
import CanonJson.Proofs.Outcome
/-!
# Stable sorting

What the sorts of this library have in common. The order need only be total and transitive on what is
sorted, which `TotalOn` says. Then the result is sorted, a sorted list is left alone, elements that
compare as equal keep their order, and, where only equal keys tie, two lists are sorted into the same
list exactly if they agree on the elements of each key.
-/

namespace CanonJson

variable {α β κ ε : Type}

/-- A total preorder on the elements with a property. -/
structure TotalOn (P : α → Prop) (le : α → α → Bool) : Prop where
  trans : ∀ a b c, P a → P b → P c → le a b = true → le b c = true → le a c = true
  total : ∀ a b, P a → P b → (le a b || le b a) = true

namespace TotalOn

variable {P : α → Prop} {le : α → α → Bool}

theorem refl (h : TotalOn P le) {a : α} (ha : P a) : le a a = true := by
  simpa using h.total a a ha ha

theorem comap (h : TotalOn P le) {Q : β → Prop} {f : β → α} (hf : ∀ b, Q b → P (f b)) :
    TotalOn Q fun a b => le (f a) (f b) where
  trans a b c ha hb hc := h.trans _ _ _ (hf a ha) (hf b hb) (hf c hc)
  total a b ha hb := h.total _ _ (hf a ha) (hf b hb)

/-! The facts of the library are about orders on a whole type: they apply to the elements that have the
property, as a subtype. -/

theorem mergeSort_attach (le : α → α → Bool) {l : List α} (hl : ∀ a ∈ l, P a) :
    ((l.attachWith P hl).mergeSort fun a b => le a.1 b.1).map Subtype.val = l.mergeSort le := by
  rw [List.map_mergeSort (s := le) fun a _ b _ => rfl, List.attachWith_map_subtype_val]

theorem pairwise_mergeSort (h : TotalOn P le) {l : List α} (hl : ∀ a ∈ l, P a) :
    (l.mergeSort le).Pairwise fun a b => le a b = true := by
  rw [← mergeSort_attach le hl, List.pairwise_map]
  exact List.pairwise_mergeSort (fun a b c => h.trans a.1 b.1 c.1 a.2 b.2 c.2)
    (fun a b => h.total a.1 b.1 a.2 b.2) _

theorem sublist_mergeSort (h : TotalOn P le) {l : List α} (hl : ∀ a ∈ l, P a) {p : α → Bool}
    (hp : ∀ a ∈ l, ∀ b ∈ l, p a = true → p b = true → le a b = true) :
    (l.filter p).Sublist (l.mergeSort le) := by
  have hattach : l.filter p = ((l.attachWith P hl).filter fun a => p a.1).map Subtype.val := by
    have hfilter := List.filter_map (f := Subtype.val) (p := p) (l := l.attachWith P hl)
    rwa [List.attachWith_map_subtype_val] at hfilter
  rw [hattach, ← mergeSort_attach le hl]
  refine List.Sublist.map _ (List.sublist_mergeSort (fun a b c => h.trans a.1 b.1 c.1 a.2 b.2 c.2)
    (fun a b => h.total a.1 b.1 a.2 b.2) ?_ List.filter_sublist)
  apply List.pairwise_of_forall_mem_list
  intro a ha b hb
  rw [List.mem_filter, List.mem_attachWith] at ha hb
  exact hp a.1 ha.1 b.1 hb.1 ha.2 hb.2

/-- Elements that compare as equal keep their order. -/
theorem filter_mergeSort (h : TotalOn P le) {l : List α} (hl : ∀ a ∈ l, P a) {p : α → Bool}
    (hp : ∀ a ∈ l, ∀ b ∈ l, p a = true → p b = true → le a b = true) :
    (l.mergeSort le).filter p = l.filter p := by
  -- They are a sorted sublist, which sorting keeps, and sorting brings no others.
  have hsublist : (l.filter p).Sublist ((l.mergeSort le).filter p) := by
    have hfilter := (h.sublist_mergeSort hl hp).filter p
    rwa [List.filter_filter, List.filter_congr fun a _ => Bool.and_self (p a)] at hfilter
  exact (hsublist.eq_of_length ((List.mergeSort_perm l le).filter p).length_eq.symm).symm

end TotalOn

/-! ### Lists that agree key by key -/

section Keys

variable [DecidableEq κ] {key : α → κ} {le : κ → κ → Bool}

theorem mem_of_filter_eq {l l' : List α} (h : ∀ k, l.filter (key · = k) = l'.filter (key · = k))
    {a : α} (ha : a ∈ l) : a ∈ l' := by
  have hmem : a ∈ l.filter (key · = key a) := List.mem_filter.mpr ⟨ha, by simp⟩
  rw [h] at hmem
  exact (List.mem_filter.mp hmem).1

/-- Sorted lists with the same elements under each key are the same, if only equal keys tie. -/
theorem eq_of_filter_eq {l l' : List α}
    (hanti : ∀ a ∈ l, ∀ b ∈ l', le (key a) (key b) = true → le (key b) (key a) = true → key a = key b)
    (hl : l.Pairwise fun a b => le (key a) (key b) = true)
    (hl' : l'.Pairwise fun a b => le (key a) (key b) = true)
    (h : ∀ k, l.filter (key · = k) = l'.filter (key · = k)) : l = l' := by
  induction l generalizing l' with
  | nil =>
    cases l' with
    | nil => rfl
    | cons b l' => exact absurd (mem_of_filter_eq (fun k => (h k).symm) List.mem_cons_self) List.not_mem_nil
  | cons a l ih =>
    cases l' with
    | nil => exact absurd (mem_of_filter_eq h List.mem_cons_self) List.not_mem_nil
    | cons b l' =>
      rw [List.pairwise_cons] at hl hl'
      -- Each head occurs in the other list, so neither key comes before the other.
      have hkey : key a = key b := by
        rcases List.mem_cons.mp (mem_of_filter_eq h List.mem_cons_self) with hab | ha
        · rw [hab]
        rcases List.mem_cons.mp (mem_of_filter_eq (fun k => (h k).symm) List.mem_cons_self) with hba | hb
        · rw [hba]
        · exact hanti a List.mem_cons_self b List.mem_cons_self (hl.1 b hb) (hl'.1 a ha)
      have hhead := h (key a)
      rw [List.filter_cons_of_pos (by simp), List.filter_cons_of_pos (by simp [hkey]),
        List.cons.injEq] at hhead
      have htail : ∀ k, l.filter (key · = k) = l'.filter (key · = k) := by
        intro k
        by_cases hk : key a = k
        · rw [← hk]
          exact hhead.2
        · have hother := h k
          rwa [List.filter_cons_of_neg (by simp [hk]),
            List.filter_cons_of_neg (by simp [← hkey, hk])] at hother
      rw [hhead.1,
        ih (fun a ha b hb => hanti a (List.mem_cons_of_mem _ ha) b (List.mem_cons_of_mem _ hb)) hl.2
        hl'.2 htail]

end Keys

/-! ### Keys computed beforehand -/

/-- If every key can be computed, sorting by keys is sorting by their order. -/
theorem sortByKey_eq_ok {key : α → Except ε κ} {g : α → κ} {le : κ → κ → Bool} {l : List α}
    (h : ∀ a ∈ l, key a = .ok (g a)) :
    sortByKey key le l = .ok (l.mergeSort fun a b => le (g a) (g b)) := by
  have hkeyed : (l.mapM fun a => (do return (← key a, a) : Except ε (κ × α))) = .ok (l.map fun a => (g a, a)) := by
    apply mapM_eq_ok
    intro a ha
    rw [h a ha]
    rfl
  have hsort : ((l.map fun a => (g a, a)).mergeSort fun a b => le a.1 b.1).map Prod.snd
      = l.mergeSort fun a b => le (g a) (g b) := by
    rw [List.map_mergeSort (s := fun a b => le (g a) (g b)), List.map_map,
      List.map_congr_left (g := id), List.map_id]
    · intro a _
      rfl
    · intro x hx y hy
      obtain ⟨a, -, rfl⟩ := List.mem_map.mp hx
      obtain ⟨b, -, rfl⟩ := List.mem_map.mp hy
      rfl
  rw [sortByKey, hkeyed, ok_bind, hsort]
  rfl

end CanonJson
