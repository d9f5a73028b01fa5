import CanonJson.Proofs.Order.Numeric
/-!
# The orders of keys as orders of encodings

An encoding keeps an order if it writes a smaller code point so that, where the two codes first differ, it has the
smaller unit. Then it makes no difference whether texts are compared by code points or by their codes, whatever the
lengths of the codes. UTF-8 keeps the order of the code points. UTF-16 keeps another one, in which everything beyond
the basic plane stands before the last part of that plane; so the two key orders differ on exactly those texts whose
first difference is between these ranges.
-/

namespace CanonJson

variable {α β : Type}

/-! ### Where lists differ -/

/-- Where the lists first differ, the first one has the element of lower rank. -/
def DiffersBelow (rank : β → Nat) (us vs : List β) : Prop :=
  ∃ p u v s t, us = p ++ u :: s ∧ vs = p ++ v :: t ∧ rank u < rank v

section Lists

variable {rank : β → Nat} {us vs : List β}

theorem lexLe_append_append (p us vs : List β) : lexLe rank (p ++ us) (p ++ vs) = lexLe rank us vs := by
  induction p with
  | nil => rfl
  | cons u p ih => rw [Bool.eq_iff_iff, List.cons_append, List.cons_append, lexLe_cons_cons, ih]; simp

@[simp] theorem not_differsBelow_nil : ¬DiffersBelow rank [] vs := by
  rintro ⟨p, u, v, s, t, h, -⟩
  simp at h

theorem differsBelow_cons {u v : β} :
    DiffersBelow rank (u :: us) (v :: vs) ↔ rank u < rank v ∨ u = v ∧ DiffersBelow rank us vs := by
  constructor
  · rintro ⟨_ | ⟨w, p⟩, u', v', s, t, hu, hv, hlt⟩
    · obtain ⟨rfl, rfl⟩ := List.cons.inj hu
      obtain ⟨rfl, rfl⟩ := List.cons.inj hv
      exact .inl hlt
    · obtain ⟨rfl, rfl⟩ := List.cons.inj hu
      obtain ⟨rfl, rfl⟩ := List.cons.inj hv
      exact .inr ⟨rfl, p, u', v', s, t, rfl, rfl, hlt⟩
  · rintro (hlt | ⟨rfl, p, u', v', s, t, rfl, rfl, hlt⟩)
    · exact ⟨[], u, v, us, vs, rfl, rfl, hlt⟩
    · exact ⟨u :: p, u', v', s, t, rfl, rfl, hlt⟩

theorem DiffersBelow.lexLe_append (h : DiffersBelow rank us vs) (s t : List β) :
    lexLe rank (us ++ s) (vs ++ t) = true := by
  obtain ⟨p, u, v, s', t', rfl, rfl, hlt⟩ := h
  rw [List.append_assoc, List.append_assoc, lexLe_append_append, List.cons_append, List.cons_append, lexLe_cons_cons]
  exact .inl hlt

theorem DiffersBelow.not_lexLe_append (h : DiffersBelow rank us vs) (s t : List β) :
    lexLe rank (vs ++ s) (us ++ t) = false := by
  obtain ⟨p, u, v, s', t', rfl, rfl, hlt⟩ := h
  rw [List.append_assoc, List.append_assoc, lexLe_append_append, List.cons_append, List.cons_append,
    Bool.eq_false_iff, ne_eq, lexLe_cons_cons]
  omega

/-- Two lists have a part in common, behind which one of them ends or they differ. -/
theorem exists_common_part [DecidableEq β] (us vs : List β) :
    ∃ p s t, us = p ++ s ∧ vs = p ++ t ∧ (s = [] ∨ t = [] ∨ ∃ u v s' t', s = u :: s' ∧ t = v :: t' ∧ u ≠ v) := by
  induction us generalizing vs with
  | nil => exact ⟨[], [], vs, rfl, rfl, .inl rfl⟩
  | cons u us ih =>
    cases vs with
    | nil => exact ⟨[], u :: us, [], rfl, rfl, .inr (.inl rfl)⟩
    | cons v vs =>
      by_cases huv : u = v
      · obtain ⟨p, s, t, rfl, rfl, h⟩ := ih vs
        exact ⟨u :: p, s, t, rfl, by rw [huv]; rfl, h⟩
      · exact ⟨[], u :: us, v :: vs, rfl, rfl, .inr (.inr ⟨u, v, us, vs, rfl, rfl, huv⟩)⟩

end Lists

/-! ### Encodings that keep an order -/

/-- On elements with a property, the codes are not empty, and an element of lower rank has a lower code. -/
structure KeepsOrder (P : α → Prop) (rank : α → Nat) (rank' : β → Nat) (encode : α → List β) : Prop where
  ne_nil : ∀ a, encode a ≠ []
  eq_of_rank_eq : ∀ a b, P a → P b → rank a = rank b → a = b
  differsBelow : ∀ a b, P a → P b → rank a < rank b → DiffersBelow rank' (encode a) (encode b)

/-- Comparing the codes is comparing what they encode. -/
theorem KeepsOrder.lexLe_flatMap {P : α → Prop} {rank : α → Nat} {rank' : β → Nat} {encode : α → List β}
    (h : KeepsOrder P rank rank' encode) {as bs : List α} (has : ∀ a ∈ as, P a) (hbs : ∀ b ∈ bs, P b) :
    lexLe rank' (as.flatMap encode) (bs.flatMap encode) = lexLe rank as bs := by
  induction as generalizing bs with
  | nil => simp [lexLe]
  | cons a as ih =>
    obtain ⟨ha, has'⟩ := List.forall_mem_cons.mp has
    cases bs with
    | nil =>
      obtain ⟨u, us, hu⟩ := List.exists_cons_of_ne_nil (h.ne_nil a)
      simp [hu, lexLe]
    | cons b bs =>
      obtain ⟨hb, hbs'⟩ := List.forall_mem_cons.mp hbs
      rw [List.flatMap_cons, List.flatMap_cons]
      rcases Nat.lt_trichotomy (rank a) (rank b) with hlt | heq | hgt
      · rw [(h.differsBelow a b ha hb hlt).lexLe_append, eq_comm, lexLe_cons_cons]
        exact .inl hlt
      · obtain rfl := h.eq_of_rank_eq a b ha hb heq
        rw [lexLe_append_append, ih has' hbs', Bool.eq_iff_iff, lexLe_cons_cons]
        simp
      · rw [(h.differsBelow b a hb ha hgt).not_lexLe_append, eq_comm, Bool.eq_false_iff, ne_eq, lexLe_cons_cons]
        omega

/-! ### UTF-8 -/

namespace Utf8

theorem differsBelow_octet_cons {a b : Nat} (ha : a < 256) (hb : b < 256) {us vs : Bytes} :
    DiffersBelow UInt8.toNat (octet a :: us) (octet b :: vs) ↔ a < b ∨ a = b ∧ DiffersBelow UInt8.toNat us vs := by
  have hinj : octet a = octet b ↔ a = b := by
    rw [← UInt8.toNat_inj, toNat_octet ha, toNat_octet hb]
  rw [differsBelow_cons, toNat_octet ha, toNat_octet hb, hinj]

theorem encodePoint_ne_nil (c : CodePoint) : encodePoint c ≠ [] := by
  unfold encodePoint
  simp only
  split
  · simp
  · split
    · simp
    · split <;> simp

/-- A longer sequence begins with a greater octet, and sequences of one length are numbers in one base. -/
theorem differsBelow_encodePoint {c d : CodePoint} (h : c.val < d.val) :
    DiffersBelow UInt8.toNat (encodePoint c) (encodePoint d) := by
  have hc := c.val_lt
  have hd := d.val_lt
  unfold encodePoint
  simp only
  split_ifs <;> simp (disch := omega) only [differsBelow_octet_cons, not_differsBelow_nil] <;> omega

theorem keepsOrder : KeepsOrder (fun _ => True) CodePoint.val UInt8.toNat encodePoint where
  ne_nil := encodePoint_ne_nil
  eq_of_rank_eq _ _ _ _ := CodePoint.eq_of_val_eq
  differsBelow _ _ _ _ := differsBelow_encodePoint

end Utf8

/-! ### UTF-16 -/

namespace Utf16

/-- The place of a code point in the order of code units: surrogates pairs stand where the surrogates are. -/
def unitRank (c : CodePoint) : Nat :=
  if c.val < 0xE000 then c.val
  else if c.val < 0x10000 then c.val + 0x100000
  else c.val - 0x2000

theorem eq_of_unitRank_eq {c d : CodePoint} (h : unitRank c = unitRank d) : c = d := by
  have hc := c.val_lt
  have hd := d.val_lt
  unfold unitRank at h
  apply CodePoint.eq_of_val_eq
  split_ifs at h <;> omega

theorem differsBelow_unitsOfPoint {c d : CodePoint} (h : unitRank c < unitRank d) (hc : c.isSurrogate = false)
    (hd : d.isSurrogate = false) : DiffersBelow id (unitsOfPoint c) (unitsOfPoint d) := by
  rw [CodePoint.isSurrogate_eq_false_iff] at hc hd
  have hcLt := c.val_lt
  have hdLt := d.val_lt
  unfold unitRank at h
  unfold unitsOfPoint
  -- In any case the first units differ, except those of two pairs with one high surrogate.
  split <;> split <;> rw [differsBelow_cons, id, id]
  · exact .inl (by split_ifs at h <;> omega)
  · exact .inl (by split_ifs at h <;> omega)
  · exact .inl (by split_ifs at h <;> omega)
  · rw [differsBelow_cons, id, id]
    split_ifs at h <;> omega

theorem keepsOrder : KeepsOrder (·.isSurrogate = false) unitRank id unitsOfPoint where
  ne_nil := unitsOfPoint_ne_nil
  eq_of_rank_eq _ _ _ _ := eq_of_unitRank_eq
  differsBelow _ _ hc hd h := differsBelow_unitsOfPoint h hc hd

end Utf16

/-! ### The key orders -/

namespace KeyOrder

variable {a b c : Text}

/-- The first key is put no later than the second, by what members are sorted by. -/
def Precedes (order : KeyOrder) (a b : Text) : Prop :=
  ∃ k l, memberKey order a = .ok k ∧ memberKey order b = .ok l ∧ lexLe id k l = true

theorem precedes_iff (order : KeyOrder) (ha : a.SurrogateFree) (hb : b.SurrogateFree) :
    order.Precedes a b ↔ order.le a b = true := by
  obtain ⟨g, hg, hle⟩ := memberKey_spec order
  have hka := hg a fun _ => ha
  have hkb := hg b fun _ => hb
  constructor
  · rintro ⟨k, l, hk, hl, h⟩
    obtain rfl := Except.ok.inj (hk.symm.trans hka)
    obtain rfl := Except.ok.inj (hl.symm.trans hkb)
    rwa [hle] at h
  · intro h
    exact ⟨g a, g b, hka, hkb, by rwa [hle]⟩

/-- In the order of code units, keys are compared by the places of their code points in it. -/
theorem le_utf16 (ha : a.SurrogateFree) (hb : b.SurrogateFree) :
    KeyOrder.utf16.le a b = lexLe Utf16.unitRank a b :=
  Utf16.keepsOrder.lexLe_flatMap ha hb

/-- One of the code points lies beyond the basic plane, and the other behind the surrogates in it. -/
def Disputed (c d : CodePoint) : Prop :=
  0x10000 ≤ c.val ∧ 0xE000 ≤ d.val ∧ d.val ≤ 0xFFFF ∨ 0x10000 ≤ d.val ∧ 0xE000 ≤ c.val ∧ c.val ≤ 0xFFFF

theorem ranks_differ_iff {c d : CodePoint} (h : c ≠ d) :
    ¬(c.val < d.val ↔ Utf16.unitRank c < Utf16.unitRank d) ↔ Disputed c d := by
  have hne : c.val ≠ d.val := fun heq => h (CodePoint.eq_of_val_eq heq)
  have hcLt := c.val_lt
  have hdLt := d.val_lt
  unfold Utf16.unitRank Disputed
  split_ifs <;> omega

theorem lexLe_of_ne {rank : CodePoint → Nat} (hrank : ∀ c d, rank c = rank d → c = d) {p s t : Text}
    {c d : CodePoint} (h : c ≠ d) : lexLe rank (p ++ c :: s) (p ++ d :: t) = true ↔ rank c < rank d := by
  have hne : rank c ≠ rank d := fun heq => h (hrank c d heq)
  simp [lexLe_append_append, lexLe_cons_cons, hne]

/-- The key orders differ on two keys exactly if the first difference of these is disputed. -/
theorem le_differ_iff (ha : a.SurrogateFree) (hb : b.SurrogateFree) :
    ¬(KeyOrder.codePoint.le a b = true ↔ KeyOrder.utf16.le a b = true)
      ↔ ∃ p c d s t, a = p ++ c :: s ∧ b = p ++ d :: t ∧ Disputed c d := by
  have hdiffer : ∀ {p s t : Text} {c d : CodePoint}, c ≠ d →
      (¬(lexLe CodePoint.val (p ++ c :: s) (p ++ d :: t) = true ↔ lexLe Utf16.unitRank (p ++ c :: s) (p ++ d :: t) = true)
        ↔ Disputed c d) := by
    intro p s t c d hne
    rw [lexLe_of_ne (fun _ _ => CodePoint.eq_of_val_eq) hne, lexLe_of_ne (fun _ _ => Utf16.eq_of_unitRank_eq) hne,
      ranks_differ_iff hne]
  rw [le_utf16 ha hb, le]
  constructor
  · intro h
    obtain ⟨p, s, t, rfl, rfl, rfl | rfl | ⟨c, d, s, t, rfl, rfl, hne⟩⟩ := exists_common_part a b
    · -- A key comes before its own extensions in either order.
      rw [lexLe_append_append, lexLe_append_append] at h
      exact absurd (by simp [lexLe]) h
    · rw [lexLe_append_append, lexLe_append_append] at h
      exact absurd (by cases s <;> simp [lexLe]) h
    · exact ⟨p, c, d, s, t, rfl, rfl, (hdiffer hne).mp h⟩
  · rintro ⟨p, c, d, s, t, rfl, rfl, hdisputed⟩
    have hne : c ≠ d := by
      rintro rfl
      unfold Disputed at hdisputed
      omega
    exact (hdiffer hne).mpr hdisputed

end KeyOrder

theorem lexLe_toNat_iff_le {us vs : Bytes} : lexLe UInt8.toNat us vs = true ↔ us ≤ vs := by
  induction us generalizing vs with
  | nil => simp [lexLe]
  | cons u us ih =>
    cases vs with
    | nil => simp [lexLe]
    | cons v vs => rw [lexLe_cons_cons, ih, List.cons_le_cons_iff, UInt8.lt_iff_toNat_lt, UInt8.toNat_inj]

open KeyOrder

/-- On keys without surrogates the order of code points is the order of the octets of UTF-8, and the order of UTF-16 is that
of its octets, the high one of each unit first, and of its units. Both are total orders in which only equal keys tie. And
they differ on two keys exactly if, at the first place where these differ, one has a code point beyond the basic plane and
the other one from the last part of that plane, behind the surrogates. -/
theorem precedes_iff_encoded_le (a b : Text) (ha : a.SurrogateFree) (hb : b.SurrogateFree) :
    (∃ us vs, Utf8.encode a = .ok us ∧ Utf8.encode b = .ok vs ∧ (KeyOrder.codePoint.Precedes a b ↔ us ≤ vs))
    ∧ (∃ us vs, Utf16.encode a = .ok us ∧ Utf16.encode b = .ok vs ∧ (KeyOrder.utf16.Precedes a b ↔ us ≤ vs))
    ∧ (KeyOrder.utf16.Precedes a b ↔ Utf16.units a ≤ Utf16.units b)
    ∧ (∀ order : KeyOrder, (order.Precedes a b ∨ order.Precedes b a)
      ∧ (order.Precedes a b → order.Precedes b a → a = b)
      ∧ ∀ c : Text, c.SurrogateFree → order.Precedes a b → order.Precedes b c → order.Precedes a c)
    ∧ (¬(KeyOrder.codePoint.Precedes a b ↔ KeyOrder.utf16.Precedes a b)
      ↔ ∃ p c d s t, a = p ++ c :: s ∧ b = p ++ d :: t
        ∧ (0x10000 ≤ c.val ∧ 0xE000 ≤ d.val ∧ d.val ≤ 0xFFFF ∨ 0x10000 ≤ d.val ∧ 0xE000 ≤ c.val ∧ c.val ≤ 0xFFFF)) := by
  refine ⟨⟨_, _, Utf8.encode_eq_ok ha, Utf8.encode_eq_ok hb, ?_⟩,
    ⟨_, _, Utf16.encode_eq_ok ha, Utf16.encode_eq_ok hb, ?_⟩, ?_, fun order => ⟨?_, ?_, ?_⟩, ?_⟩
  · rw [precedes_iff _ ha hb, ← lexLe_toNat_iff_le,
      Utf8.keepsOrder.lexLe_flatMap (fun _ _ => trivial) fun _ _ => trivial, le]
  · rw [precedes_iff _ ha hb, ← lexLe_toNat_iff_le, le, ← Utf16.lexLe_octets Utf16.unit_lt Utf16.unit_lt, lexLe_map]
    rfl
  · rw [precedes_iff _ ha hb, le, lexLe_iff_map_le, List.map_id, List.map_id]
  · rw [precedes_iff _ ha hb, precedes_iff _ hb ha, ← Bool.or_eq_true]
    exact (totalOn_le order).total a b trivial trivial
  · rw [precedes_iff _ ha hb, precedes_iff _ hb ha]
    exact le_antisymm order ha hb
  · intro c hc
    rw [precedes_iff _ ha hb, precedes_iff _ hb hc, precedes_iff _ ha hc]
    exact (totalOn_le order).trans a b c trivial trivial trivial
  · rw [precedes_iff _ ha hb, precedes_iff _ ha hb]
    exact le_differ_iff ha hb

/-- A pair of surrogates stands before the private use area in UTF-16, but its code point does not. -/
theorem precedes_iff_encoded_le_disputed :
    let a : Text := [CodePoint.ofChar 'k', CodePoint.ofNat 0x1F600]
    let b : Text := [CodePoint.ofChar 'k', CodePoint.ofNat 0xE000, CodePoint.ofChar 'z']
    a.SurrogateFree ∧ b.SurrogateFree ∧ KeyOrder.utf16.Precedes a b ∧ ¬KeyOrder.codePoint.Precedes a b := by
  intro a b
  have ha : a.SurrogateFree := by decide
  have hb : b.SurrogateFree := by decide
  obtain ⟨-, -, hunits, -, hdiffer⟩ := precedes_iff_encoded_le a b ha hb
  have hutf16 : KeyOrder.utf16.Precedes a b := hunits.mpr (by decide)
  have hdisputed := hdiffer.mpr ⟨[CodePoint.ofChar 'k'], CodePoint.ofNat 0x1F600, CodePoint.ofNat 0xE000, [],
    [CodePoint.ofChar 'z'], rfl, rfl, by decide⟩
  exact ⟨ha, hb, hutf16, fun hcodePoint => hdisputed ⟨fun _ => hutf16, fun _ => hcodePoint⟩⟩

end CanonJson
