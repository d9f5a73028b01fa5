import CanonJson.Proofs.Text.Surrogate
import CanonJson.Text.Utf8
/-!
# UTF-8 is read back

Scanning the octets of a text without surrogates returns the text and leaves nothing
(`scan_encodePoints`), and no octets at all are read as a surrogate (`surrogateFree_of_scan`).
-/

namespace CanonJson.Utf8

/-! ### Octets as numbers -/

theorem toNat_octet {n : Nat} (h : n < 256) : (octet n).toNat = n := by
  rw [octet, UInt8.toNat_ofNat']
  exact Nat.mod_eq_of_lt h

theorem isContinuation_iff {b : UInt8} :
    isContinuation b = true ↔ 0x80 ≤ b.toNat ∧ b.toNat < 0xC0 := by
  simp [isContinuation, UInt8.le_iff_toNat_le, UInt8.lt_iff_toNat_lt]

theorem twoOctets?_eq (b₀ b₁ : UInt8) :
    twoOctets? b₀ b₁ =
      if 0xC2 ≤ b₀.toNat ∧ b₀.toNat < 0xE0 ∧ 0x80 ≤ b₁.toNat ∧ b₁.toNat < 0xC0 then
        some (.ofNat ((b₀.toNat - 0xC0) * 0x40 + (b₁.toNat - 0x80)))
      else none := by
  simp [twoOctets?, isContinuation_iff, UInt8.le_iff_toNat_le, UInt8.lt_iff_toNat_lt, and_assoc]

theorem threeOctets?_eq (b₀ b₁ b₂ : UInt8) :
    threeOctets? b₀ b₁ b₂ =
      let v := (b₀.toNat - 0xE0) * 0x1000 + (b₁.toNat - 0x80) * 0x40 + (b₂.toNat - 0x80)
      if 0xE0 ≤ b₀.toNat ∧ b₀.toNat < 0xF0 ∧ 0x80 ≤ b₁.toNat ∧ b₁.toNat < 0xC0 ∧ 0x80 ≤ b₂.toNat
          ∧ b₂.toNat < 0xC0 then
        if 0x800 ≤ v ∧ (v < 0xD800 ∨ 0xDFFF < v) then some (.ofNat v) else none
      else none := by
  simp [threeOctets?, isContinuation_iff, UInt8.le_iff_toNat_le, UInt8.lt_iff_toNat_lt, and_assoc]

theorem fourOctets?_eq (b₀ b₁ b₂ b₃ : UInt8) :
    fourOctets? b₀ b₁ b₂ b₃ =
      let v := (b₀.toNat - 0xF0) * 0x40000 + (b₁.toNat - 0x80) * 0x1000 + (b₂.toNat - 0x80) * 0x40
        + (b₃.toNat - 0x80)
      if 0xF0 ≤ b₀.toNat ∧ b₀.toNat < 0xF8 ∧ 0x80 ≤ b₁.toNat ∧ b₁.toNat < 0xC0 ∧ 0x80 ≤ b₂.toNat
          ∧ b₂.toNat < 0xC0 ∧ 0x80 ≤ b₃.toNat ∧ b₃.toNat < 0xC0 then
        if 0x10000 ≤ v ∧ v < 0x110000 then some (.ofNat v) else none
      else none := by
  simp [fourOctets?, isContinuation_iff, UInt8.le_iff_toNat_le, UInt8.lt_iff_toNat_lt, and_assoc]

theorem lt_iff_toNat_lt (b : UInt8) : b < 0x80 ↔ b.toNat < 0x80 :=
  UInt8.lt_iff_toNat_lt

/-! ### Sequences of each length -/

section Sequences

variable {b₀ b₁ b₂ b₃ : UInt8} {c : CodePoint} {rest : Bytes} {acc : Text}

theorem scanFrom_one (h : b₀.toNat < 0x80) :
    scanFrom (b₀ :: rest) acc = scanFrom rest (.ofNat b₀.toNat :: acc) := by
  rw [scanFrom.eq_def]
  simp only [lt_iff_toNat_lt, h, ↓reduceIte]

theorem scanFrom_two (h : ¬ b₀.toNat < 0x80) (htwo : twoOctets? b₀ b₁ = some c) :
    scanFrom (b₀ :: b₁ :: rest) acc = scanFrom rest (c :: acc) := by
  rw [scanFrom.eq_def]
  simp only [lt_iff_toNat_lt, h, ↓reduceIte, htwo]

theorem scanFrom_three (h : ¬ b₀.toNat < 0x80) (htwo : twoOctets? b₀ b₁ = none)
    (hthree : threeOctets? b₀ b₁ b₂ = some c) :
    scanFrom (b₀ :: b₁ :: b₂ :: rest) acc = scanFrom rest (c :: acc) := by
  rw [scanFrom.eq_def]
  simp only [lt_iff_toNat_lt, h, ↓reduceIte, htwo, hthree]

theorem scanFrom_four (h : ¬ b₀.toNat < 0x80) (htwo : twoOctets? b₀ b₁ = none)
    (hthree : threeOctets? b₀ b₁ b₂ = none) (hfour : fourOctets? b₀ b₁ b₂ b₃ = some c) :
    scanFrom (b₀ :: b₁ :: b₂ :: b₃ :: rest) acc = scanFrom rest (c :: acc) := by
  rw [scanFrom.eq_def]
  simp only [lt_iff_toNat_lt, h, ↓reduceIte, htwo, hthree, hfour]

end Sequences

/-! ### Reading back -/

theorem scanFrom_encodePoint {c : CodePoint} (hc : c.isSurrogate = false) (rest : Bytes)
    (acc : Text) : scanFrom (encodePoint c ++ rest) acc = scanFrom rest (c :: acc) := by
  rw [CodePoint.isSurrogate_eq_false_iff] at hc
  have hlt := c.val_lt
  have hback : ∀ n, n = c.val → CodePoint.ofNat n = c := by
    rintro n rfl
    exact CodePoint.ofNat_val c
  unfold encodePoint
  simp only
  split
  · have h₀ := @toNat_octet c.val (by omega)
    rw [List.singleton_append, scanFrom_one (by omega), hback _ h₀]
  split
  · have h₀ := @toNat_octet (0xC0 + c.val / 0x40) (by omega)
    have h₁ := @toNat_octet (0x80 + c.val % 0x40) (by omega)
    refine scanFrom_two (by omega) ?_
    rw [twoOctets?_eq, if_pos (by omega), hback _ (by omega)]
  split
  · have h₀ := @toNat_octet (0xE0 + c.val / 0x1000) (by omega)
    have h₁ := @toNat_octet (0x80 + c.val / 0x40 % 0x40) (by omega)
    have h₂ := @toNat_octet (0x80 + c.val % 0x40) (by omega)
    refine scanFrom_three (by omega) ?_ ?_
    · rw [twoOctets?_eq, if_neg (by omega)]
    · rw [threeOctets?_eq]
      simp only
      rw [if_pos (by omega), if_pos (by omega), hback _ (by omega)]
  · have h₀ := @toNat_octet (0xF0 + c.val / 0x40000) (by omega)
    have h₁ := @toNat_octet (0x80 + c.val / 0x1000 % 0x40) (by omega)
    have h₂ := @toNat_octet (0x80 + c.val / 0x40 % 0x40) (by omega)
    have h₃ := @toNat_octet (0x80 + c.val % 0x40) (by omega)
    refine scanFrom_four (by omega) ?_ ?_ ?_
    · rw [twoOctets?_eq, if_neg (by omega)]
    · rw [threeOctets?_eq]
      simp only
      rw [if_neg (by omega)]
    · rw [fourOctets?_eq]
      simp only
      rw [if_pos (by omega), if_pos (by omega), hback _ (by omega)]

theorem scanFrom_encodePoints {t : Text} (ht : t.SurrogateFree) (rest : Bytes) (acc : Text) :
    scanFrom (t.flatMap encodePoint ++ rest) acc = scanFrom rest (t.reverse ++ acc) := by
  induction t generalizing acc with
  | nil => rfl
  | cons c t ih =>
    obtain ⟨hc, ht⟩ := Text.surrogateFree_cons.mp ht
    rw [List.flatMap_cons, List.append_assoc, scanFrom_encodePoint hc, ih ht, List.reverse_cons,
      List.append_assoc, List.singleton_append]

/-- The octets of a text are scanned as the text, to their end. -/
theorem scan_encodePoints {t : Text} (ht : t.SurrogateFree) :
    scan (t.flatMap encodePoint) = (t, []) := by
  have hscan := scanFrom_encodePoints ht [] []
  rwa [List.append_nil, List.append_nil, scanFrom, List.reverse_reverse] at hscan

theorem encode_eq_ok {t : Text} (ht : t.SurrogateFree) :
    encode t = .ok (t.flatMap encodePoint) := by
  rw [encode, Text.findIdx?_isSurrogate ht]

/-! ### No surrogates -/

theorem isSurrogate_of_twoOctets? {b₀ b₁ : UInt8} {c : CodePoint} (h : twoOctets? b₀ b₁ = some c) :
    c.isSurrogate = false := by
  rw [twoOctets?_eq] at h
  split at h
  · obtain rfl := Option.some.inj h
    exact CodePoint.isSurrogate_ofNat (by omega)
  · simp at h

theorem isSurrogate_of_threeOctets? {b₀ b₁ b₂ : UInt8} {c : CodePoint}
    (h : threeOctets? b₀ b₁ b₂ = some c) : c.isSurrogate = false := by
  rw [threeOctets?_eq] at h
  simp only at h
  split at h
  · split at h
    · rename_i hv
      obtain rfl := Option.some.inj h
      exact CodePoint.isSurrogate_ofNat hv.2
    · simp at h
  · simp at h

theorem isSurrogate_of_fourOctets? {b₀ b₁ b₂ b₃ : UInt8} {c : CodePoint}
    (h : fourOctets? b₀ b₁ b₂ b₃ = some c) : c.isSurrogate = false := by
  rw [fourOctets?_eq] at h
  simp only at h
  split at h
  · split at h
    · rename_i hv
      obtain rfl := Option.some.inj h
      exact CodePoint.isSurrogate_ofNat (by omega)
    · simp at h
  · simp at h

theorem surrogateFree_scanFrom {bs : Bytes} {acc : Text} (hacc : acc.SurrogateFree) :
    (scanFrom bs acc).1.SurrogateFree := by
  have hrev : ∀ {t : Text}, t.SurrogateFree → Text.SurrogateFree t.reverse := by
    intro t ht c hc
    exact ht c (List.mem_reverse.mp hc)
  fun_induction scanFrom bs acc with
  | case1 acc => exact hrev hacc
  | case2 acc b₀ r₀ hb ih =>
    rw [lt_iff_toNat_lt] at hb
    exact ih (Text.surrogateFree_cons.mpr ⟨CodePoint.isSurrogate_ofNat (by omega), hacc⟩)
  | case3 => exact hrev hacc
  | case4 acc b₀ _ b₁ r₁ c h ih => exact ih (Text.surrogateFree_cons.mpr ⟨isSurrogate_of_twoOctets? h, hacc⟩)
  | case5 => exact hrev hacc
  | case6 acc b₀ _ b₁ _ b₂ r₂ c h ih =>
    exact ih (Text.surrogateFree_cons.mpr ⟨isSurrogate_of_threeOctets? h, hacc⟩)
  | case7 => exact hrev hacc
  | case8 acc b₀ _ b₁ _ b₂ _ b₃ r₃ c h ih =>
    exact ih (Text.surrogateFree_cons.mpr ⟨isSurrogate_of_fourOctets? h, hacc⟩)
  | case9 => exact hrev hacc

theorem surrogateFree_of_scan {bs rest : Bytes} {t : Text} (h : scan bs = (t, rest)) :
    t.SurrogateFree := by
  have hscan : (scanFrom bs []).1.SurrogateFree := surrogateFree_scanFrom Text.surrogateFree_nil
  rw [← scan, h] at hscan
  exact hscan

end CanonJson.Utf8
