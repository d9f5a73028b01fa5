import CanonJson.Order.Sorted
import CanonJson.Proofs.Order.Sort
import CanonJson.Proofs.Text.Utf8
/-!
# Comparing keys

Lexicographic order is a total preorder, and an order where the rank tells elements apart. Comparing keys
by the octets of their UTF-16 form is comparing them by code units, and on texts without surrogates the
code units determine the text, so either key order ties only equal keys.
-/

namespace CanonJson

variable {α : Type} {rank : α → Nat}

/-! ### Lexicographic order -/

theorem lexLe_cons_cons {a b : α} {as bs : List α} :
    lexLe rank (a :: as) (b :: bs) = true
      ↔ rank a < rank b ∨ rank a = rank b ∧ lexLe rank as bs = true := by
  rw [lexLe]
  split
  · simp [*]
  · split
    · simp
      omega
    · have heq : rank a = rank b := by omega
      simp [heq]

theorem lexLe_trans {as bs cs : List α} (h : lexLe rank as bs = true)
    (h' : lexLe rank bs cs = true) : lexLe rank as cs = true := by
  induction as generalizing bs cs with
  | nil => simp [lexLe]
  | cons a as ih =>
    cases bs with
    | nil => simp [lexLe] at h
    | cons b bs =>
      cases cs with
      | nil => simp [lexLe] at h'
      | cons c cs =>
        rw [lexLe_cons_cons] at h h' ⊢
        rcases h with h | ⟨hab, h⟩
        · exact .inl (by omega)
        · rcases h' with h' | ⟨hbc, h'⟩
          · exact .inl (by omega)
          · exact .inr ⟨by omega, ih h h'⟩

theorem lexLe_total (as bs : List α) : (lexLe rank as bs || lexLe rank bs as) = true := by
  rw [Bool.or_eq_true]
  induction as generalizing bs with
  | nil => simp [lexLe]
  | cons a as ih =>
    cases bs with
    | nil => simp [lexLe]
    | cons b bs =>
      rw [lexLe_cons_cons, lexLe_cons_cons]
      rcases ih bs with h | h <;> rcases Nat.lt_trichotomy (rank a) (rank b) with hlt | heq | hgt <;> simp [*]

theorem lexLe_antisymm (hrank : ∀ a b, rank a = rank b → a = b) {as bs : List α}
    (h : lexLe rank as bs = true) (h' : lexLe rank bs as = true) : as = bs := by
  induction as generalizing bs with
  | nil =>
    cases bs with
    | nil => rfl
    | cons b bs => simp [lexLe] at h'
  | cons a as ih =>
    cases bs with
    | nil => simp [lexLe] at h
    | cons b bs =>
      rw [lexLe_cons_cons] at h h'
      have hab : rank a = rank b := by omega
      rw [hrank a b hab, ih (by simpa [hab] using h) (by simpa [hab] using h')]

theorem totalOn_lexLe : TotalOn (fun _ => True) (lexLe rank) where
  trans _ _ _ _ _ _ := lexLe_trans
  total as bs _ _ := lexLe_total as bs

theorem lexLe_map {β : Type} (f : β → α) (as bs : List β) :
    lexLe rank (as.map f) (bs.map f) = lexLe (rank ∘ f) as bs := by
  induction as generalizing bs with
  | nil => simp [lexLe]
  | cons a as ih =>
    cases bs with
    | nil => simp [lexLe]
    | cons b bs =>
      rw [List.map_cons, List.map_cons, lexLe, lexLe, ih]
      rfl

/-! ### Code units -/

namespace Utf16

theorem unit_lt {t : Text} : ∀ u ∈ units t, u < 0x10000 := by
  intro u hu
  obtain ⟨c, -, hu⟩ := List.mem_flatMap.mp hu
  have hlt := c.val_lt
  unfold unitsOfPoint at hu
  split at hu
  · simp only [List.mem_singleton] at hu
    omega
  · simp only [List.mem_cons, List.not_mem_nil, or_false] at hu
    omega

/-- Octets in pairs, the high one first, compare as the units they stand for. -/
theorem lexLe_octets {us vs : List Nat} (hus : ∀ u ∈ us, u < 0x10000)
    (hvs : ∀ v ∈ vs, v < 0x10000) :
    lexLe id ((us.flatMap octetsOfUnit).map UInt8.toNat) ((vs.flatMap octetsOfUnit).map UInt8.toNat)
      = lexLe id us vs := by
  have hoctets : ∀ u < 0x10000, (octetsOfUnit u).map UInt8.toNat = [u / 0x100, u % 0x100] := by
    intro u hu
    simp only [octetsOfUnit, List.map_cons, List.map_nil, UInt8.toNat_ofNat', List.cons.injEq,
      and_true]
    omega
  induction us generalizing vs with
  | nil => simp [lexLe]
  | cons u us ih =>
    obtain ⟨hu, hus⟩ := List.forall_mem_cons.mp hus
    cases vs with
    | nil => simp [octetsOfUnit, lexLe]
    | cons v vs =>
      obtain ⟨hv, hvs⟩ := List.forall_mem_cons.mp hvs
      rw [Bool.eq_iff_iff, List.flatMap_cons, List.flatMap_cons, List.map_append, List.map_append,
        hoctets u hu,
        hoctets v hv, List.cons_append, List.cons_append, List.cons_append, List.cons_append, List.nil_append,
        List.nil_append, lexLe_cons_cons, lexLe_cons_cons, lexLe_cons_cons, ih hus hvs]
      simp only [id]
      constructor
      · rintro (h | ⟨h, h' | ⟨h', hrest⟩⟩)
        · exact .inl (by omega)
        · exact .inl (by omega)
        · exact .inr ⟨by omega, hrest⟩
      · rintro (h | ⟨rfl, hrest⟩)
        · by_cases hhigh : u / 0x100 < v / 0x100
          · exact .inl hhigh
          · exact .inr ⟨by omega, .inl (by omega)⟩
        · exact .inr ⟨rfl, .inr ⟨rfl, hrest⟩⟩

/-- The first code point of a text is determined by its code units. -/
theorem unitsOfPoint_append_inj {c d : CodePoint} (hc : c.isSurrogate = false)
    (hd : d.isSurrogate = false) {us vs : List Nat}
    (h : unitsOfPoint c ++ us = unitsOfPoint d ++ vs) : c = d ∧ us = vs := by
  rw [CodePoint.isSurrogate_eq_false_iff] at hc hd
  have hcLt := c.val_lt
  have hdLt := d.val_lt
  unfold unitsOfPoint at h
  -- A unit of the basic plane is no surrogate, and the first of a pair is one.
  split at h <;> split at h <;>
    simp only [List.cons_append, List.nil_append, List.cons.injEq] at h
  · exact ⟨CodePoint.eq_of_val_eq h.1, h.2⟩
  · omega
  · omega
  · exact ⟨CodePoint.eq_of_val_eq (by omega), h.2.2⟩

theorem unitsOfPoint_ne_nil (c : CodePoint) : unitsOfPoint c ≠ [] := by
  unfold unitsOfPoint
  split <;> simp

theorem units_injective {s t : Text} (hs : s.SurrogateFree) (ht : t.SurrogateFree)
    (h : units s = units t) : s = t := by
  induction s generalizing t with
  | nil =>
    cases t with
    | nil => rfl
    | cons d t => simp [units, unitsOfPoint_ne_nil] at h
  | cons c s ih =>
    cases t with
    | nil => simp [units, unitsOfPoint_ne_nil] at h
    | cons d t =>
      rw [Text.surrogateFree_cons] at hs ht
      obtain ⟨hcd, hrest⟩ := unitsOfPoint_append_inj hs.1 ht.1 h
      rw [hcd, ih hs.2 ht.2 hrest]

theorem encode_eq_ok {t : Text} (ht : t.SurrogateFree) :
    encode t = .ok ((units t).flatMap octetsOfUnit) := by
  rw [encode, Text.findIdx?_isSurrogate ht]

theorem surrogateFree_of_encode {t : Text} {bs : Bytes} (h : encode t = .ok bs) : t.SurrogateFree := by
  unfold encode at h
  split at h
  · rename_i hnone
    exact List.findIdx?_eq_none_iff.mp hnone
  · cases h

end Utf16

/-! ### Key orders -/

namespace KeyOrder

theorem totalOn_le (order : KeyOrder) : TotalOn (fun _ => True) order.le := by
  cases order with
  | codePoint => exact totalOn_lexLe
  | utf16 => exact totalOn_lexLe.comap fun _ h => h

/-- Only equal keys tie. -/
theorem le_antisymm (order : KeyOrder) {s t : Text} (hs : s.SurrogateFree) (ht : t.SurrogateFree)
    (h : order.le s t = true) (h' : order.le t s = true) : s = t := by
  cases order with
  | codePoint => exact lexLe_antisymm (fun _ _ => CodePoint.eq_of_val_eq) h h'
  | utf16 => exact Utf16.units_injective hs ht (lexLe_antisymm (fun _ _ hrank => hrank) h h')

end KeyOrder

/-- The key of a member can be computed, and compares as the key order says. -/
theorem memberKey_spec (order : KeyOrder) :
    ∃ g : Text → List Nat, (∀ t, (order = .utf16 → t.SurrogateFree) → memberKey order t = .ok (g t))
      ∧ ∀ s t, lexLe id (g s) (g t) = order.le s t := by
  cases order with
  | codePoint =>
    refine ⟨fun t => t.map CodePoint.val, fun t _ => rfl, ?_⟩
    intro s t
    rw [lexLe_map]
    rfl
  | utf16 =>
    refine ⟨fun t => ((Utf16.units t).flatMap Utf16.octetsOfUnit).map UInt8.toNat, ?_, ?_⟩
    · intro t ht
      simp only [memberKey, Utf16.encode_eq_ok (ht rfl)]
    · intro s t
      exact Utf16.lexLe_octets Utf16.unit_lt Utf16.unit_lt

end CanonJson
