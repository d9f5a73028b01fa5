import CanonJson.Proofs.Order.Equivalence
import CanonJson.Proofs.Order.Numeric
import CanonJson.Proofs.Order.Respelled
import Mathlib.Data.List.Pairwise
/-!
# Arrays sorted by a member

Items are compared by the first value that they have under the member: by its type, then false before true, numbers
by value, strings by code points and containers by the code points of their compact text. This is `MemberLe`, stated
without sort keys, and a total preorder on well-formed items. Each array of a canonical tree is what a stable sort by
this order makes of the canonical items of an array of the tree (`SortedByMember`). Where no two items tie, the sorted
list is determined by which items there are, so it does not matter in which order they were.
-/

namespace CanonJson

open Value

variable {o : SortOptions} {member : Text}

/-! ### The order of values -/

/-- The first value comes no later than the second. -/
inductive ValueLe : Value → Value → Prop where
  | type {x y : Value} {r s : ℕ} (hx : x.rank? = .ok r) (hy : y.rank? = .ok s) (h : r < s) : ValueLe x y
  | null : ValueLe .null .null
  | bool {a b : Bool} (h : a = true → b = true) : ValueLe (.bool a) (.bool b)
  | number {s t : Text} {x y : ℚ} (hs : NumberDenotes s x) (ht : NumberDenotes t y) (h : x ≤ y) :
      ValueLe (.number s) (.number t)
  | string {s t : Text} (h : s.map CodePoint.val ≤ t.map CodePoint.val) : ValueLe (.string s) (.string t)
  | container {x y : Value} {s t : Text} (hx : x.isContainer = true) (hsame : x.rank? = y.rank?)
      (hs : render .compact x = .ok s) (ht : render .compact y = .ok t)
      (h : s.map CodePoint.val ≤ t.map CodePoint.val) : ValueLe x y

theorem ValueLe.rank_le {x y : Value} {r s : ℕ} (h : ValueLe x y) (hx : x.rank? = .ok r) (hy : y.rank? = .ok s) :
    r ≤ s := by
  cases h with
  | type hr hs hlt =>
    obtain rfl := Except.ok.inj (hx.symm.trans hr)
    obtain rfl := Except.ok.inj (hy.symm.trans hs)
    exact hlt.le
  | container _ hsame _ _ _ => exact (Except.ok.inj (hx.symm.trans (hsame.trans hy))).le
  | _ => exact (Except.ok.inj (hx.symm.trans hy)).le

theorem typedKey_of_isContainer {x : Value} (hx : x.WellFormed) (h : x.isContainer = true) :
    ∃ s, render .compact x = .ok s ∧ TypedKey.ofValue x = .ok (.text s) := by
  have hindent : checkIndent LayoutOptions.compact.indent = .ok () := rfl
  have hrender := render_eq_ok hindent hx.printable
  refine ⟨_, hrender, ?_⟩
  cases x with
  | array items =>
    simp only [TypedKey.ofValue, hrender]
    rfl
  | object members =>
    simp only [TypedKey.ofValue, hrender]
    rfl
  | _ => simp [isContainer] at h

theorem typedKey_number_le_iff {s t : Text} {k l : TypedKey} (hs : isNumeral s = true) (ht : isNumeral t = true)
    (hk : TypedKey.ofValue (.number s) = .ok k) (hl : TypedKey.ofValue (.number t) = .ok l) :
    k.le l = true ↔ ∃ x y, NumberDenotes s x ∧ NumberDenotes t y ∧ x ≤ y := by
  obtain ⟨p, hp, hreduced⟩ := NumberParts.exists_reduced_of_number (isNumeral_iff.mp hs)
  obtain ⟨q, hq, hreduced'⟩ := NumberParts.exists_reduced_of_number (isNumeral_iff.mp ht)
  obtain rfl := Except.ok.inj ((typedKey_number hp).symm.trans hk)
  obtain rfl := Except.ok.inj ((typedKey_number hq).symm.trans hl)
  rw [TypedKey.le, NumberKey.ofParts_le_iff hreduced hreduced']
  constructor
  · intro hle
    exact ⟨_, _, NumberParts.numberDenotes_toRat hp, NumberParts.numberDenotes_toRat hq, hle⟩
  · rintro ⟨x, y, hx, hy, hle⟩
    rwa [NumberParts.eq_toRat_of_numberDenotes hp hx, NumberParts.eq_toRat_of_numberDenotes hq hy] at hle

theorem typedKey_container_le_iff {x y : Value} {k l : TypedKey} (hx : x.WellFormed) (hy : y.WellFormed)
    (hcx : x.isContainer = true) (hcy : y.isContainer = true) (hk : TypedKey.ofValue x = .ok k)
    (hl : TypedKey.ofValue y = .ok l) :
    k.le l = true ↔ ∃ s t, render .compact x = .ok s ∧ render .compact y = .ok t
      ∧ s.map CodePoint.val ≤ t.map CodePoint.val := by
  obtain ⟨s, hs, hkeys⟩ := typedKey_of_isContainer hx hcx
  obtain ⟨t, ht, hkeyt⟩ := typedKey_of_isContainer hy hcy
  obtain rfl := Except.ok.inj (hkeys.symm.trans hk)
  obtain rfl := Except.ok.inj (hkeyt.symm.trans hl)
  rw [TypedKey.le, lexLe_iff_map_le]
  constructor
  · intro hle
    exact ⟨s, t, hs, ht, hle⟩
  · rintro ⟨s', t', hs', ht', hle⟩
    obtain rfl := Except.ok.inj (hs.symm.trans hs')
    obtain rfl := Except.ok.inj (ht.symm.trans ht')
    exact hle

/-- Keys of values of one type compare as the values. -/
theorem valueLe_iff_of_rank?_eq {x y : Value} {k l : TypedKey} (hx : x.WellFormed) (hy : y.WellFormed)
    (hsame : x.rank? = y.rank?) (hk : TypedKey.ofValue x = .ok k) (hl : TypedKey.ofValue y = .ok l) :
    ValueLe x y ↔ k.le l = true := by
  have hcontainer := isContainer_eq_of_rank? hx hy hsame
  constructor
  · intro h
    cases h with
    | type hr hs hlt =>
      exact absurd (Except.ok.inj (hr.symm.trans (hsame.trans hs))) (Nat.ne_of_lt hlt)
    | null =>
      obtain rfl := Except.ok.inj hk
      obtain rfl := Except.ok.inj hl
      rfl
    | @bool a b h =>
      obtain rfl := Except.ok.inj hk
      obtain rfl := Except.ok.inj hl
      cases a <;> simp_all [TypedKey.le]
    | number hs ht hle => exact (typedKey_number_le_iff hx hy hk hl).mpr ⟨_, _, hs, ht, hle⟩
    | string hle =>
      obtain rfl := Except.ok.inj hk
      obtain rfl := Except.ok.inj hl
      exact lexLe_iff_map_le.mpr hle
    | container hc _ hs ht hle =>
      exact (typedKey_container_le_iff hx hy hc (hcontainer.symm.trans hc) hk hl).mpr ⟨_, _, hs, ht, hle⟩
  · intro h
    cases hc : x.isContainer with
    | true =>
      obtain ⟨s, t, hs, ht, hle⟩ := (typedKey_container_le_iff hx hy hc (hcontainer.symm.trans hc) hk hl).mp h
      exact .container hc hsame hs ht hle
    | false =>
      -- Scalars of one type are of one constructor.
      cases x with
      | null =>
        cases y with
        | null => exact .null
        | _ => simp [rank?] at hsame
      | bool a =>
        cases y with
        | bool b =>
          obtain rfl := Except.ok.inj hk
          obtain rfl := Except.ok.inj hl
          exact .bool fun ha => by simpa [TypedKey.le, ha] using h
        | _ => simp [rank?] at hsame
      | number s =>
        cases y with
        | number t =>
          obtain ⟨_, _, hs, ht, hle⟩ := (typedKey_number_le_iff hx hy hk hl).mp h
          exact .number hs ht hle
        | _ => simp [rank?] at hsame
      | string s =>
        cases y with
        | string t =>
          obtain rfl := Except.ok.inj hk
          obtain rfl := Except.ok.inj hl
          exact .string (lexLe_iff_map_le.mp h)
        | _ => simp [rank?] at hsame
      | array items => simp [isContainer] at hc
      | object members => simp [isContainer] at hc
      | foreign d => exact hx.elim

theorem valueLe_iff {x y : Value} (hx : x.WellFormed) (hy : y.WellFormed) :
    ValueLe x y ↔ (valueKey x).le (valueKey y) = true := by
  obtain ⟨r, k, hrank, hkey, hkeyx⟩ := exists_valueKey hx
  obtain ⟨s, l, hrank', hkey', hkeyy⟩ := exists_valueKey hy
  rw [hkeyx, hkeyy, ElementKey.carries_le_carries]
  rcases Nat.lt_trichotomy r s with hlt | rfl | hgt
  · exact iff_of_true (.type hrank hrank' hlt) (.inl hlt)
  · rw [valueLe_iff_of_rank?_eq hx hy (hrank.trans hrank'.symm) hkey hkey']
    simp
  · refine iff_of_false (fun h => ?_) (by omega)
    have hle := h.rank_le hrank hrank'
    omega

/-! ### The order of items -/

/-- The item is an object that has the member. -/
def carries (member : Text) (v : Value) : Bool :=
  (sortValue? member v).isSome

/-- The first item comes no later than the second: what has the member goes by its value, and the rest comes last. -/
inductive MemberLe (member : Text) (a b : Value) : Prop where
  | carried {x y : Value} (ha : sortValue? member a = some x) (hb : sortValue? member b = some y) (h : ValueLe x y)
  | last (hb : sortValue? member b = none)

/-- Neither item comes before the other. -/
def Tied (member : Text) (a b : Value) : Prop :=
  MemberLe member a b ∧ MemberLe member b a

theorem MemberLe.of_not_carries {a b : Value} (hb : carries member b = false) : MemberLe member a b :=
  .last (by simpa [carries] using hb)

theorem MemberLe.carries_left {a b : Value} (h : MemberLe member a b) (hb : carries member b = true) :
    carries member a = true := by
  cases h with
  | carried ha _ _ => simp [carries, ha]
  | last hnone => simp [carries, hnone] at hb

theorem memberLe_iff {a b : Value} (ha : a.WellFormed) (hb : b.WellFormed) :
    MemberLe member a b ↔ (elementKey member a).le (elementKey member b) = true := by
  rw [elementKey_eq, elementKey_eq]
  cases hy : sortValue? member b with
  | none =>
    refine iff_of_true (.last hy) ?_
    cases (sortValue? member a).elim .last valueKey <;> rfl
  | some y =>
    have hwfy := wellFormed_of_sortValue? hb hy
    cases hx : sortValue? member a with
    | none =>
      obtain ⟨r, k, -, -, hkey⟩ := exists_valueKey hwfy
      refine iff_of_false ?_ (by simp [hkey, ElementKey.le])
      rintro (⟨hx', _, _⟩ | hy')
      · simp [hx] at hx'
      · simp [hy] at hy'
    | some x =>
      have hwfx := wellFormed_of_sortValue? ha hx
      constructor
      · rintro (⟨hx', hy', hle⟩ | hy')
        · obtain rfl := Option.some.inj (hx.symm.trans hx')
          obtain rfl := Option.some.inj (hy.symm.trans hy')
          exact (valueLe_iff hwfx hwfy).mp hle
        · simp [hy] at hy'
      · intro hle
        exact .carried hx hy ((valueLe_iff hwfx hwfy).mpr hle)

theorem memberLe_total {a b : Value} (ha : a.WellFormed) (hb : b.WellFormed) :
    MemberLe member a b ∨ MemberLe member b a := by
  rw [memberLe_iff ha hb, memberLe_iff hb ha, ← Bool.or_eq_true]
  exact (totalOn_elementKey member).total a b ha hb

theorem memberLe_trans {a b c : Value} (ha : a.WellFormed) (hb : b.WellFormed) (hc : c.WellFormed)
    (hab : MemberLe member a b) (hbc : MemberLe member b c) : MemberLe member a c := by
  rw [memberLe_iff ha hb] at hab
  rw [memberLe_iff hb hc] at hbc
  rw [memberLe_iff ha hc]
  exact (totalOn_elementKey member).trans a b c ha hb hc hab hbc

/-! ### Sorted arrays -/

/-- The second list is what a stable sort by the member makes of the first. -/
structure SortedByMember (member : Text) (items sorted : List Value) : Prop where
  perm : sorted.Perm items
  /-- What has the member comes first, and the rest follows in the order that it had. -/
  carriers_first : sorted = sorted.filter (carries member) ++ items.filter (!carries member ·)
  ascending : (sorted.filter (carries member)).Pairwise (MemberLe member)
  /-- Items that all tie keep their order. -/
  stable : ∀ p : Value → Bool, (∀ a ∈ items, ∀ b ∈ items, p a = true → p b = true → MemberLe member a b) →
    sorted.filter p = items.filter p

theorem eq_filter_append_filter {α : Type} {p : α → Bool} {l : List α}
    (h : l.Pairwise fun a b => p b = true → p a = true) : l = l.filter p ++ l.filter (!p ·) := by
  induction l with
  | nil => rfl
  | cons a l ih =>
    obtain ⟨hhead, htail⟩ := List.pairwise_cons.mp h
    cases ha : p a with
    | true =>
      rw [List.filter_cons_of_pos ha, List.filter_cons_of_neg (by simp [ha]), List.cons_append, ← ih htail]
    | false =>
      have hnone : ∀ b ∈ l, p b = false := by
        intro b hb
        rw [Bool.eq_false_iff]
        intro hpb
        simp [hhead b hb hpb] at ha
      rw [List.filter_cons_of_neg (by simp [ha]), List.filter_eq_nil_iff.mpr (by simpa using hnone),
        List.filter_eq_self.mpr (by simpa [ha] using hnone)]
      rfl

theorem sortedByMember_arrangeItems (ho : o.arraysBy = some member) {items : List Value}
    (hwf : ∀ v ∈ items, v.WellFormed) : SortedByMember member items (arrangeItems o items) := by
  have htotal := totalOn_elementKey member
  have hperm := arrangeItems_perm o items
  have hstable : ∀ p : Value → Bool,
      (∀ a ∈ items, ∀ b ∈ items, p a = true → p b = true → MemberLe member a b) →
      (arrangeItems o items).filter p = items.filter p := by
    intro p hp
    rw [arrangeItems, ho]
    refine htotal.filter_mergeSort hwf fun a ha b hb hpa hpb => ?_
    exact (memberLe_iff (hwf a ha) (hwf b hb)).mp (hp a ha b hb hpa hpb)
  have hsorted : (arrangeItems o items).Pairwise (MemberLe member) := by
    have hwf' := fun v hv => hwf v (hperm.mem_iff.mp hv)
    rw [arrangeItems, ho] at hwf' ⊢
    refine (htotal.pairwise_mergeSort hwf).imp_of_mem fun ha hb hle => ?_
    exact (memberLe_iff (hwf' _ ha) (hwf' _ hb)).mpr hle
  refine ⟨hperm, ?_, hsorted.filter _, hstable⟩
  have hsplit := eq_filter_append_filter (hsorted.imp fun hle => hle.carries_left)
  rwa [hstable (!carries member ·) fun a _ b _ _ hb => .of_not_carries (by simpa using hb)] at hsplit

namespace SortedByMember

theorem pairwise {items sorted : List Value} (h : SortedByMember member items sorted) :
    sorted.Pairwise (MemberLe member) := by
  rw [h.carriers_first, List.pairwise_append]
  have hlast : ∀ b ∈ items.filter (!carries member ·), ∀ a, MemberLe member a b := by
    intro b hb a
    exact .of_not_carries (by simpa using (List.mem_filter.mp hb).2)
  refine ⟨h.ascending, ?_, fun a _ b hb => hlast b hb a⟩
  exact List.pairwise_of_forall_mem_list fun a _ b hb => hlast b hb a

/-- Where no two items tie, the order that they had does not matter. -/
theorem eq_of_perm {items items' sorted sorted' : List Value} (h : SortedByMember member items sorted)
    (h' : SortedByMember member items' sorted') (hperm : items.Perm items')
    (hties : items.Pairwise fun a b => ¬ Tied member a b) : sorted = sorted' := by
  have hsymm : Std.Symm fun a b => ¬ Tied member a b := ⟨fun _ _ hab hba => hab hba.symm⟩
  refine List.Perm.eq_of_pairwise ?_ h.pairwise h'.pairwise (h.perm.trans (hperm.trans h'.perm.symm))
  intro a b ha hb hab hba
  by_contra hne
  have hmem := h.perm.mem_iff.mp ha
  have hmem' := hperm.mem_iff.mpr (h'.perm.mem_iff.mp hb)
  exact hties.forall hmem hmem' hne ⟨hab, hba⟩

end SortedByMember

/-! ### Trees -/

/-- What a canonical item is sorted by is the canonical form of what the item has first under the member. -/
theorem sortValue?_arranged (v : Value) :
    sortValue? member (arranged o v) = (sortValue? member v).map (arranged o) := by
  cases v with
  | object members =>
    rw [arranged_object, sortValue?, sortValue?, lookup, lookup, ← List.head?_filter, filter_arrangeMembers,
      List.head?_filter, List.find?_map, Option.map_map, Option.map_map]
    rfl
  | _ => simp [sortValue?]

theorem mapM_sortValue? {v : Value} (hv : v.WellFormed) :
    (sortValue? member v).mapM (canonicalize o) = .ok (sortValue? member (arranged o v)) := by
  rw [sortValue?_arranged]
  cases hx : sortValue? member v with
  | none => rfl
  | some x =>
    rw [Option.mapM_some, canonicalize_eq_ok o (wellFormed_of_sortValue? hv hx)]
    rfl

/-- The trees differ in the order of the items of one array, whose canonical items do not tie. -/
inductive Shuffled (o : SortOptions) (member : Text) : Value → Value → Prop where
  | array {items items' canonical : List Value} (h : items.Perm items')
      (hcanonical : items.mapM (canonicalize o) = .ok canonical)
      (hties : canonical.Pairwise fun a b => ¬ Tied member a b) : Shuffled o member (.array items) (.array items')
  | item {v w : Value} (before after : List Value) (h : Shuffled o member v w) :
      Shuffled o member (.array (before ++ v :: after)) (.array (before ++ w :: after))
  | member {v w : Value} (before after : List (Text × Value)) (key : Text) (h : Shuffled o member v w) :
      Shuffled o member (.object (before ++ (key, v) :: after)) (.object (before ++ (key, w) :: after))

theorem mapM_canonicalize {items : List Value} (hwf : ∀ v ∈ items, v.WellFormed) :
    items.mapM (canonicalize o) = .ok (items.map (arranged o)) :=
  mapM_eq_ok fun v hv => canonicalize_eq_ok o (hwf v hv)

theorem sortedByMember_arranged (ho : o.arraysBy = some member) {items : List Value}
    (hwf : ∀ v ∈ items, v.WellFormed) :
    SortedByMember member (items.map (arranged o)) (arrangeItems o (items.map (arranged o))) := by
  apply sortedByMember_arrangeItems ho
  intro u hu
  obtain ⟨v, hv, rfl⟩ := List.mem_map.mp hu
  exact wellFormed_arranged (hwf v hv)

theorem Shuffled.arranged_eq (ho : o.arraysBy = some member) {v w : Value} (h : Shuffled o member v w)
    (hv : v.WellFormed) : w.WellFormed ∧ arranged o w = arranged o v := by
  induction h with
  | array hperm hcanonical hties =>
    rw [wellFormed_array] at hv
    have hwf := fun v hmem => hv v (hperm.mem_iff.mpr hmem)
    obtain rfl := Except.ok.inj ((mapM_canonicalize hv).symm.trans hcanonical)
    refine ⟨wellFormed_array.mpr hwf, ?_⟩
    rw [arranged_array, arranged_array]
    exact congrArg Value.array ((sortedByMember_arranged ho hv).eq_of_perm (sortedByMember_arranged ho hwf)
      (hperm.map _) hties).symm
  | item before after _ ih =>
    rw [wellFormed_array, List.forall_mem_append, List.forall_mem_cons] at hv
    obtain ⟨hbefore, hitem, hafter⟩ := hv
    obtain ⟨hwf, heq⟩ := ih hitem
    refine ⟨?_, ?_⟩
    · rw [wellFormed_array, List.forall_mem_append, List.forall_mem_cons]
      exact ⟨hbefore, hwf, hafter⟩
    · rw [arranged_array, arranged_array, List.map_append, List.map_append, List.map_cons, List.map_cons, heq]
  | member before after key _ ih =>
    rw [wellFormed_object, List.forall_mem_append, List.forall_mem_cons] at hv
    obtain ⟨hbefore, ⟨hkey, hvalue⟩, hafter⟩ := hv
    obtain ⟨hwf, heq⟩ := ih hvalue
    refine ⟨?_, ?_⟩
    · rw [wellFormed_object, List.forall_mem_append, List.forall_mem_cons]
      exact ⟨hbefore, ⟨hkey, hwf⟩, hafter⟩
    · rw [arranged_object, arranged_object, List.map_append, List.map_append, List.map_cons, List.map_cons, heq]

theorem exists_array_of_occurs_arranged {v : Value} {sorted : List Value}
    (h : Occurs (.array sorted) (arranged o v)) :
    ∃ items, Occurs (.array items) v ∧ arrangeItems o (items.map (arranged o)) = sorted := by
  obtain ⟨w, hw, hws⟩ := exists_of_occurs_arranged h
  cases w with
  | array items =>
    rw [arranged_array, Value.array.injEq] at hws
    exact ⟨items, hw, hws⟩
  | _ => simp at hws

/-- Sorting by a member is a stable sort by a total preorder, at every array of the tree. -/
theorem canonicalize_sorts_by_member (o : SortOptions) (member : Text) (v : Value) (ho : o.arraysBy = some member)
    (hv : v.WellFormed) :
    (∀ a b, a.WellFormed → b.WellFormed → MemberLe member a b ∨ MemberLe member b a)
    ∧ (∀ a b c, a.WellFormed → b.WellFormed → c.WellFormed → MemberLe member a b → MemberLe member b c →
      MemberLe member a c)
    ∧ (∀ a, a.WellFormed → ∃ d, canonicalize o a = .ok d ∧ d.WellFormed
      ∧ (sortValue? member a).mapM (canonicalize o) = .ok (sortValue? member d))
    ∧ ∃ c, canonicalize o v = .ok c
      ∧ (∀ items, Occurs (.array items) v → ∃ canonical sorted, items.mapM (canonicalize o) = .ok canonical
        ∧ canonicalize o (.array items) = .ok (.array sorted) ∧ SortedByMember member canonical sorted
        ∧ Occurs (.array sorted) c)
      ∧ (∀ sorted, Occurs (.array sorted) c → ∃ items canonical, Occurs (.array items) v
        ∧ items.mapM (canonicalize o) = .ok canonical ∧ SortedByMember member canonical sorted)
      ∧ ∀ w, Shuffled o member v w → canonicalize o w = .ok c := by
  refine ⟨fun a b => memberLe_total, fun a b c => memberLe_trans, fun a ha => ?_, arranged o v,
    canonicalize_eq_ok o hv, fun items hitems => ?_, fun sorted hsorted => ?_, fun w hw => ?_⟩
  · exact ⟨arranged o a, canonicalize_eq_ok o ha, wellFormed_arranged ha, mapM_sortValue? ha⟩
  · have hwf := hv.of_occurs hitems
    have hoccurs := hitems.arranged (o := o)
    rw [arranged_array] at hoccurs
    refine ⟨_, _, mapM_canonicalize (wellFormed_array.mp hwf), ?_,
      sortedByMember_arranged ho (wellFormed_array.mp hwf), hoccurs⟩
    rw [canonicalize_eq_ok o hwf, arranged_array]
  · obtain ⟨items, hitems, rfl⟩ := exists_array_of_occurs_arranged hsorted
    have hwf := wellFormed_array.mp (hv.of_occurs hitems)
    exact ⟨items, _, hitems, mapM_canonicalize hwf, sortedByMember_arranged ho hwf⟩
  · obtain ⟨hwf, heq⟩ := hw.arranged_eq ho hv
    rw [canonicalize_eq_ok o hwf, heq]

/-- The array of a member, with a repeated key and an item that is no object: sorted, and in another order. -/
theorem canonicalize_sorts_by_member_shuffled :
    let k : Text := Text.ofChars ['k']
    let o : SortOptions := ⟨false, .codePoint, some k⟩
    let nine : Value := .object [(k, .number (Text.ofChars ['9', '.', '0'])), (k, .null)]
    let ten : Value := .object [(k, .number (Text.ofChars ['1', 'e', '1']))]
    let name : Value := .object [(k, .string k)]
    let v : Value := .object [(k, .array [nine, ten, name, .bool true])]
    let w : Value := .object [(k, .array [ten, .bool true, nine, name])]
    v.WellFormed ∧ Shuffled o k v w ∧ canonicalize o w = .ok v := by
  intro k o nine ten name v w
  have hk : k.SurrogateFree := by decide
  have hnine : nine.WellFormed :=
    ⟨hk, (by decide : isNumeral (Text.ofChars ['9', '.', '0']) = true), hk, trivial, trivial⟩
  have hten : ten.WellFormed := ⟨hk, (by decide : isNumeral (Text.ofChars ['1', 'e', '1']) = true), trivial⟩
  have hname : name.WellFormed := ⟨hk, hk, trivial⟩
  have hitems : (Value.array [nine, ten, name, .bool true]).WellFormed := ⟨hnine, hten, hname, trivial, trivial⟩
  have hv : v.WellFormed := ⟨hk, hitems, trivial⟩
  rw [wellFormed_array] at hitems
  have hkeys : [nine, ten, name, .bool true].Pairwise fun a b =>
      (elementKey k a).le (elementKey k b) = true ∧ (elementKey k b).le (elementKey k a) = false := by
    decide
  have hcanonical : [nine, ten, name, .bool true].map (arranged o) = [nine, ten, name, .bool true] := rfl
  have harranged : arrangeItems o [nine, ten, name, .bool true] = [nine, ten, name, .bool true] :=
    List.mergeSort_of_pairwise (hkeys.imp And.left)
  have hties : [nine, ten, name, .bool true].Pairwise fun a b => ¬ Tied k a b := by
    refine hkeys.imp_of_mem fun ha hb hlt htied => ?_
    have hle := (memberLe_iff (hitems _ hb) (hitems _ ha)).mp htied.2
    rw [hlt.2] at hle
    contradiction
  have hperm : [nine, ten, name, .bool true].Perm [ten, .bool true, nine, name] :=
    .trans (.swap _ _ _) (.cons _ (.trans (.cons _ (.swap _ _ _)) (.swap _ _ _)))
  have hshuffled : Shuffled o k v w := .member [] [] k (.array hperm (mapM_canonicalize hitems) (hcanonical ▸ hties))
  obtain ⟨-, -, -, c, hc, -, -, hsame⟩ := canonicalize_sorts_by_member o k v rfl hv
  have hv' : canonicalize o v = .ok v := by
    rw [canonicalize_eq_ok o hv, arranged_object, List.map_cons, List.map_nil, arranged_array, hcanonical, harranged]
    rfl
  refine ⟨hv, hshuffled, ?_⟩
  rw [hsame w hshuffled, ← hc, hv']

end CanonJson
