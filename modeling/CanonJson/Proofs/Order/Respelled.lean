import CanonJson.Proofs.Layout.RoundTrip
import CanonJson.Proofs.Order.Arranged
import CanonJson.Proofs.Value.Occurs
/-!
# Canonical order and the spelling of numbers

Array items are compared by the value of a member. A number there is compared by its exact value and any
other scalar by itself, so the spelling of numbers plays no part. A container is compared by its compact
text, and that text has its numbers as they were written. So a tree in canonical order may be out of order
once its numbers are normalized. This happens exactly if two items of one array are sorted by containers of
the same type whose texts compare in another way with normalized numbers
(`arranged_normalized_eq_self_iff`). A tree with normalized numbers stays in canonical order.
-/

namespace CanonJson

open Value

variable {o : SortOptions}

/-! ### Sorted at every node -/

theorem SortedEverywhere.of_occurs {u v : Value} (hv : SortedEverywhere o v) (h : Occurs u v) :
    SortedEverywhere o u := by
  induction h with
  | self => exact hv
  | item hmem _ ih => exact ih ((sortedEverywhere_array.mp hv).2 _ hmem)
  | member hm _ ih => exact ih ((sortedEverywhere_object.mp hv).2 _ hm)

theorem sortedEverywhere_iff_occurs {v : Value} :
    SortedEverywhere o v
      ↔ (∀ items, Occurs (.array items) v → ItemsSorted o items)
        ∧ ∀ members, Occurs (.object members) v → KeysSorted o members := by
  constructor
  · intro h
    refine ⟨fun items hoccurs => ?_, fun members hoccurs => ?_⟩
    · exact (sortedEverywhere_array.mp (h.of_occurs hoccurs)).1
    · exact (sortedEverywhere_object.mp (h.of_occurs hoccurs)).1
  · rintro ⟨hitems, hmembers⟩
    induction v using childInduction with
    | null => simp [SortedEverywhere]
    | bool b => simp [SortedEverywhere]
    | number t => simp [SortedEverywhere]
    | string t => simp [SortedEverywhere]
    | array items ih =>
      refine sortedEverywhere_array.mpr ⟨hitems items .self, fun v hv => ?_⟩
      exact ih v hv (fun _ h => hitems _ (.item hv h)) (fun _ h => hmembers _ (.item hv h))
    | object members ih =>
      refine sortedEverywhere_object.mpr ⟨hmembers members .self, fun m hm => ?_⟩
      exact ih m hm (fun _ h => hitems _ (.member hm h)) (fun _ h => hmembers _ (.member hm h))
    | foreign d => simp [SortedEverywhere]

theorem exists_of_occurs_arranged {u v : Value} (h : Occurs u (arranged o v)) :
    ∃ w, Occurs w v ∧ arranged o w = u := by
  induction v using childInduction with
  | null => exact ⟨_, .self, by cases h; rfl⟩
  | bool b => exact ⟨_, .self, by cases h; rfl⟩
  | number t => exact ⟨_, .self, by cases h; rfl⟩
  | string t => exact ⟨_, .self, by cases h; rfl⟩
  | array items ih =>
    rw [arranged_array] at h
    cases h with
    | self => exact ⟨_, .self, arranged_array items⟩
    | item hu h =>
      obtain ⟨v, hv, rfl⟩ := exists_of_mem_arrangeItems hu
      obtain ⟨w, hw, hwu⟩ := ih v hv h
      exact ⟨w, .item hv hw, hwu⟩
  | object members ih =>
    rw [arranged_object] at h
    cases h with
    | self => exact ⟨_, .self, arranged_object members⟩
    | member hn h =>
      obtain ⟨m, hm, rfl⟩ := exists_of_mem_arrangeMembers hn
      obtain ⟨w, hw, hwu⟩ := ih m hm h
      exact ⟨w, .member hm hw, hwu⟩
  | foreign d => exact ⟨_, .self, by cases h; rfl⟩

theorem Value.Occurs.arranged {u v : Value} (h : Occurs u v) : Occurs (arranged o u) (arranged o v) := by
  induction h with
  | self => exact .self
  | item hv _ ih =>
    rw [arranged_array]
    exact .item ((arrangeItems_perm o _).mem_iff.mpr (List.mem_map_of_mem hv)) ih
  | @member members m hm _ ih =>
    have hm' : (m.1, CanonJson.arranged o m.2) ∈ members.map fun m => (m.1, CanonJson.arranged o m.2) :=
      List.mem_map_of_mem (f := fun m => (m.1, CanonJson.arranged o m.2)) hm
    rw [arranged_object]
    exact .member ((arrangeMembers_perm o _).mem_iff.mpr hm') ih

theorem occurs_number_of_arranged {t : Text} {v : Value} (h : Occurs (.number t) (arranged o v)) :
    Occurs (.number t) v := by
  obtain ⟨w, hw, hwt⟩ := exists_of_occurs_arranged h
  cases w with
  | number s =>
    rw [arranged_number] at hwt
    rwa [← hwt]
  | _ => simp at hwt

/-! ### Normalized trees -/

/-- The tree with all its numbers in their normalized spelling. -/
def Value.normalized (v : Value) : Value :=
  v.mapNumbers normalNumber

theorem normalNumber_of_occurs_normalized {v : Value} (hv : v.WellFormed) {t : Text}
    (h : Occurs (.number t) v.normalized) : normalNumber t = t := by
  obtain ⟨w, hw, hwt⟩ := exists_of_occurs_mapNumbers h
  cases w with
  | number s =>
    have hs : isNumeral s = true := hv.of_occurs hw
    rw [mapNumbers_number, number.injEq] at hwt
    rw [← hwt, normalNumber_normalNumber hs]
  | _ => simp at hwt

/-- Sorting a tree with normalized numbers gives one. -/
theorem normalized_arranged_normalized {v : Value} (hv : v.WellFormed) :
    (arranged o v.normalized).normalized = arranged o v.normalized :=
  mapNumbers_eq_self fun _ h => normalNumber_of_occurs_normalized hv (occurs_number_of_arranged h)

/-- The layout with its numbers as written gives a normalized tree the text with normalized numbers. -/
theorem Layout.shape_normalized (v : Value) (level : Nat) :
    shape .compact level v.normalized = shape .rfc8785 level v := by
  unfold normalized
  induction v using childInduction generalizing level with
  | null => simp [shape]
  | bool b => cases b <;> simp [shape]
  | number t =>
    rw [mapNumbers_number]
    rfl
  | string t =>
    rw [mapNumbers_string]
    rfl
  | array items ih =>
    rw [mapNumbers_array, shape, shape, shapeItems_eq_map, shapeItems_eq_map, List.map_map]
    exact congrArg (bracketed .rfc8785 .array level)
      (List.map_congr_left fun v hv => ih v hv (level + 1))
  | object members ih =>
    rw [mapNumbers_object, shape, shape, shapeMembers_eq_map, shapeMembers_eq_map, List.map_map]
    refine congrArg (bracketed .rfc8785 .object level) (List.map_congr_left fun m hm => ?_)
    exact congrArg (keyText .rfc8785 m.1 ++ ·) (ih m hm (level + 1))
  | foreign d => simp [shape]

theorem Layout.documentShape_normalized (v : Value) :
    documentShape .compact v.normalized = documentShape .rfc8785 v := by
  rw [documentShape, documentShape, shape_normalized]
  rfl

theorem wellFormed_normalized {v : Value} (hv : v.WellFormed) : v.normalized.WellFormed := by
  unfold normalized
  induction v using childInduction with
  | null => simpa using hv
  | bool b => simpa using hv
  | number t => exact isNumeral_normalNumber hv
  | string t => simpa using hv
  | array items ih =>
    rw [wellFormed_array] at hv
    rw [mapNumbers_array, wellFormed_array]
    intro u hu
    obtain ⟨v, hmem, rfl⟩ := List.mem_map.mp hu
    exact ih v hmem (hv v hmem)
  | object members ih =>
    rw [wellFormed_object] at hv
    rw [mapNumbers_object, wellFormed_object]
    intro n hn
    obtain ⟨m, hm, rfl⟩ := List.mem_map.mp hn
    exact ⟨(hv m hm).1, ih m hm (hv m hm).2⟩
  | foreign d => exact hv.elim

/-! ### What items are sorted by -/

def Value.isContainer : Value → Bool
  | .array _ => true
  | .object _ => true
  | _ => false

/-- What an array item is sorted by, if it is sorted by anything. -/
def sortValue? (member : Text) : Value → Option Value
  | .object members => lookup member members
  | _ => none

/-- Two items that are sorted by containers of the same type come in the order of the texts that these
have with normalized numbers. -/
def NormalLe (member : Text) (a b : Value) : Prop :=
  ∀ x ∈ sortValue? member a, ∀ y ∈ sortValue? member b, x.isContainer = true → x.rank? = y.rank? →
    lexLe CodePoint.val (Layout.documentShape .rfc8785 x) (Layout.documentShape .rfc8785 y) = true

theorem sortValue?_normalized (member : Text) (v : Value) :
    sortValue? member v.normalized = (sortValue? member v).map normalized := by
  unfold normalized
  cases v with
  | object members =>
    rw [mapNumbers_object, sortValue?, sortValue?, lookup, lookup, List.find?_map, Option.map_map,
      Option.map_map]
    rfl
  | _ => simp [sortValue?]

theorem rank?_normalized (x : Value) : x.normalized.rank? = x.rank? := by
  unfold normalized
  cases x <;> simp [rank?]

theorem isContainer_eq_of_rank? {x y : Value} (hx : x.WellFormed) (hy : y.WellFormed)
    (h : x.rank? = y.rank?) : x.isContainer = y.isContainer := by
  cases x <;> cases y <;> first | rfl | exact hx.elim | exact hy.elim | simp [rank?] at h

/-- Scalars are compared by what they stand for, whatever the spelling. -/
theorem typedKey_normalized {x : Value} (hx : x.WellFormed) (h : x.isContainer = false) :
    TypedKey.ofValue x.normalized = TypedKey.ofValue x := by
  unfold normalized
  cases x with
  | null => simp
  | bool b => simp
  | number t =>
    obtain ⟨p, hp, -⟩ := exists_reduced_of_isNumeral hx
    rw [mapNumbers_number, TypedKey.ofValue, TypedKey.ofValue, ofText?_normalNumber hx, hp]
  | string t => simp
  | array items => simp [isContainer] at h
  | object members => simp [isContainer] at h
  | foreign d => exact hx.elim

/-- Containers are compared by their text, so with normalized numbers by that with normalized numbers. -/
theorem typedKey_normalized_of_isContainer {x : Value} (hx : x.WellFormed)
    (h : x.isContainer = true) :
    TypedKey.ofValue x.normalized = .ok (.text (Layout.documentShape .rfc8785 x)) := by
  have hindent : checkIndent LayoutOptions.compact.indent = .ok () := rfl
  have hrender := render_eq_ok hindent (wellFormed_normalized hx).printable
  rw [Layout.documentShape_normalized] at hrender
  unfold normalized at *
  cases x with
  | array items =>
    rw [mapNumbers_array] at *
    simp only [TypedKey.ofValue, hrender]
    rfl
  | object members =>
    rw [mapNumbers_object] at *
    simp only [TypedKey.ofValue, hrender]
    rfl
  | _ => simp [isContainer] at h

/-- What a value is compared by; one without a key goes last. -/
def valueKey (x : Value) : ElementKey :=
  match ElementKey.rank x, TypedKey.ofValue x with
  | .ok r, .ok k => .carries r k
  | _, _ => .last

theorem elementKey_eq (member : Text) (v : Value) :
    elementKey member v = (sortValue? member v).elim .last valueKey := by
  cases v with
  | object members =>
    rw [elementKey, ElementKey.ofItem, sortValue?]
    cases lookup member members with
    | none => rfl
    | some x =>
      simp only [Option.elim_some, valueKey]
      cases ElementKey.rank x with
      | error e => rfl
      | ok r => cases TypedKey.ofValue x <;> rfl
  | _ => rfl

theorem exists_valueKey {x : Value} (hx : x.WellFormed) :
    ∃ r k, x.rank? = .ok r ∧ TypedKey.ofValue x = .ok k ∧ valueKey x = .carries r k := by
  obtain ⟨r, k, hrank, hkey, -⟩ := typedKey_of_wellFormed hx
  refine ⟨r, k, ?_, hkey, ?_⟩
  · unfold ElementKey.rank at hrank
    split at hrank
    · rename_i hrank?
      rw [hrank?, Except.ok.inj hrank]
    · simp at hrank
  · rw [valueKey, hrank, hkey]

theorem wellFormed_of_sortValue? {member : Text} {v x : Value} (hv : v.WellFormed)
    (h : sortValue? member v = some x) : x.WellFormed := by
  cases v with
  | object members =>
    obtain ⟨m, hm, rfl⟩ := Option.map_eq_some_iff.mp h
    exact (wellFormed_object.mp hv m (List.mem_of_find?_eq_some hm)).2
  | _ => simp [sortValue?] at h

/-- Values in order stay in order, unless they are containers of one type. -/
theorem valueKey_normalized_le_iff {x y : Value} (hx : x.WellFormed) (hy : y.WellFormed)
    (hle : (valueKey x).le (valueKey y) = true) :
    (valueKey x.normalized).le (valueKey y.normalized) = true
      ↔ (x.isContainer = true → x.rank? = y.rank? →
        lexLe CodePoint.val (Layout.documentShape .rfc8785 x) (Layout.documentShape .rfc8785 y) = true) := by
  obtain ⟨r, k, hrank, hkey, hkeyx⟩ := exists_valueKey hx
  obtain ⟨s, l, hrank', hkey', hkeyy⟩ := exists_valueKey hy
  obtain ⟨r', m, hnrank, hnkey, hnkeyx⟩ := exists_valueKey (wellFormed_normalized hx)
  obtain ⟨s', n, hnrank', hnkey', hnkeyy⟩ := exists_valueKey (wellFormed_normalized hy)
  obtain rfl := Except.ok.inj (hnrank.symm.trans ((rank?_normalized x).trans hrank))
  obtain rfl := Except.ok.inj (hnrank'.symm.trans ((rank?_normalized y).trans hrank'))
  rw [hkeyx, hkeyy, ElementKey.carries_le_carries] at hle
  rw [hnkeyx, hnkeyy, ElementKey.carries_le_carries, hrank, hrank']
  -- The ranks are what they were, so the keys matter only where the ranks are the same.
  rcases hle with hlt | ⟨rfl, hle⟩
  · constructor
    · intro _ _ hsame
      exact absurd (Except.ok.inj hsame) (Nat.ne_of_lt hlt)
    · intro _
      exact .inl hlt
  · have hsame := isContainer_eq_of_rank? hx hy (hrank.trans hrank'.symm)
    cases hc : x.isContainer with
    | false =>
      rw [typedKey_normalized hx hc, hkey] at hnkey
      rw [typedKey_normalized hy (hsame.symm.trans hc), hkey'] at hnkey'
      obtain rfl := Except.ok.inj hnkey
      obtain rfl := Except.ok.inj hnkey'
      simp [hle]
    | true =>
      rw [typedKey_normalized_of_isContainer hx hc] at hnkey
      rw [typedKey_normalized_of_isContainer hy (hsame.symm.trans hc)] at hnkey'
      obtain rfl := Except.ok.inj hnkey
      obtain rfl := Except.ok.inj hnkey'
      simp [TypedKey.le]

theorem itemLe_normalized_iff {member : Text} {a b : Value} (ha : a.WellFormed) (hb : b.WellFormed)
    (hle : ItemLe member a b) : ItemLe member a.normalized b.normalized ↔ NormalLe member a b := by
  rw [itemLe_iff member ha hb, elementKey_eq, elementKey_eq] at hle
  rw [itemLe_iff member (wellFormed_normalized ha) (wellFormed_normalized hb), elementKey_eq,
    elementKey_eq, sortValue?_normalized, sortValue?_normalized, NormalLe]
  cases hx : sortValue? member a with
  | none =>
    cases hy : sortValue? member b with
    | none => simp [ElementKey.le]
    | some y =>
      -- An item with nothing to be sorted by does not stand in front of one that has something.
      obtain ⟨s, l, -, -, hkey⟩ := exists_valueKey (wellFormed_of_sortValue? hb hy)
      simp [hx, hy, hkey, ElementKey.le] at hle
  | some x =>
    have hwfx := wellFormed_of_sortValue? ha hx
    cases hy : sortValue? member b with
    | none =>
      obtain ⟨r, k, -, -, hkey⟩ := exists_valueKey (wellFormed_normalized hwfx)
      simp [hkey, ElementKey.le]
    | some y =>
      rw [hx, hy] at hle
      simpa using valueKey_normalized_le_iff hwfx (wellFormed_of_sortValue? hb hy) hle

/-! ### Normalized trees in canonical order -/

theorem keysSorted_map {g : Value → Value} {members : List (Text × Value)} :
    KeysSorted o (members.map fun m => (m.1, g m.2)) ↔ KeysSorted o members := by
  simp only [KeysSorted, List.pairwise_map]

theorem exists_array_of_occurs_normalized {v : Value} {items : List Value}
    (h : Occurs (.array items) v.normalized) :
    ∃ items', Occurs (.array items') v ∧ items = items'.map normalized := by
  obtain ⟨w, hw, hwitems⟩ := exists_of_occurs_mapNumbers h
  cases w with
  | array items' =>
    rw [mapNumbers_array, array.injEq] at hwitems
    exact ⟨items', hw, hwitems.symm⟩
  | _ => simp at hwitems

theorem exists_object_of_occurs_normalized {v : Value} {members : List (Text × Value)}
    (h : Occurs (.object members) v.normalized) :
    ∃ members', Occurs (.object members') v
      ∧ members = members'.map fun m => (m.1, m.2.normalized) := by
  obtain ⟨w, hw, hwmembers⟩ := exists_of_occurs_mapNumbers h
  cases w with
  | object members' =>
    rw [mapNumbers_object, object.injEq] at hwmembers
    exact ⟨members', hw, hwmembers.symm⟩
  | _ => simp at hwmembers

variable {member : Text}

theorem itemsSorted_normalized_iff (hmember : o.arraysBy = some member) {items : List Value}
    (hwf : ∀ v ∈ items, v.WellFormed) (hsorted : ItemsSorted o items) :
    ItemsSorted o (items.map normalized) ↔ items.Pairwise (NormalLe member) := by
  have hpairs := hsorted member hmember
  have hiff : (items.map normalized).Pairwise (ItemLe member) ↔ items.Pairwise (NormalLe member) := by
    rw [List.pairwise_map]
    constructor
    · intro h
      refine (hpairs.and h).imp_of_mem fun ha hb hle => ?_
      exact (itemLe_normalized_iff (hwf _ ha) (hwf _ hb) hle.1).mp hle.2
    · intro h
      refine (hpairs.and h).imp_of_mem fun ha hb hle => ?_
      exact (itemLe_normalized_iff (hwf _ ha) (hwf _ hb) hle.1).mpr hle.2
  rw [← hiff]
  constructor
  · intro h
    exact h member hmember
  · intro h member' hmember'
    obtain rfl := Option.some.inj (hmember.symm.trans hmember')
    exact h

theorem sortedEverywhere_normalized_iff (hmember : o.arraysBy = some member) {v : Value}
    (hv : v.WellFormed) (hsorted : SortedEverywhere o v) :
    SortedEverywhere o v.normalized
      ↔ ∀ items, Occurs (.array items) v → items.Pairwise (NormalLe member) := by
  obtain ⟨hitems, hmembers⟩ := sortedEverywhere_iff_occurs.mp hsorted
  rw [sortedEverywhere_iff_occurs]
  constructor
  · rintro ⟨h, -⟩ items hoccurs
    have hwf := wellFormed_array.mp (hv.of_occurs hoccurs)
    have hmapped := hoccurs.mapNumbers (f := normalNumber)
    rw [mapNumbers_array] at hmapped
    exact (itemsSorted_normalized_iff hmember hwf (hitems items hoccurs)).mp (h _ hmapped)
  · intro h
    constructor
    · intro _ hmapped
      obtain ⟨items, hoccurs, rfl⟩ := exists_array_of_occurs_normalized hmapped
      have hwf := wellFormed_array.mp (hv.of_occurs hoccurs)
      exact (itemsSorted_normalized_iff hmember hwf (hitems items hoccurs)).mpr (h items hoccurs)
    · intro _ hmapped
      obtain ⟨members, hoccurs, rfl⟩ := exists_object_of_occurs_normalized hmapped
      exact keysSorted_map.mpr (hmembers members hoccurs)

/-- A tree in canonical order is in canonical order with normalized numbers exactly if the containers that
its arrays are sorted by stay in order. -/
theorem arranged_normalized_eq_self_iff (hmember : o.arraysBy = some member) {v : Value}
    (hv : v.WellFormed) (hsorted : SortedEverywhere o v) :
    arranged o v.normalized = v.normalized
      ↔ ∀ items, Occurs (.array items) v → items.Pairwise (NormalLe member) := by
  have hwf := wellFormed_normalized hv
  rw [← sortedEverywhere_normalized_iff hmember hv hsorted]
  constructor
  · intro h
    rw [← h]
    exact sortedEverywhere_arranged hwf
  · intro h
    exact arranged_of_sortedEverywhere hwf h

end CanonJson
