import CanonJson.Proofs.Text.Utf8
/-!
# The longest valid prefix

Octets are valid if they are the encoding of a text. A scan splits any octets in two: the encoding of the
text that it read, and what it left. Scanning goes through any valid octets in front of others without
looking at what follows, so it cannot stop before the end of a valid prefix, and what it read is the longest
of them (`valid_take_le_of_scan`).
-/

namespace CanonJson.Utf8

/-- The octets are the encoding of a text. -/
def Valid (bs : Bytes) : Prop :=
  ∃ t, encode t = .ok bs

theorem encode_eq_ok_iff {t : Text} {bs : Bytes} :
    encode t = .ok bs ↔ t.SurrogateFree ∧ t.flatMap encodePoint = bs := by
  constructor
  · intro h
    have ht : t.SurrogateFree := by
      rw [encode] at h
      split at h
      · rename_i hnone
        exact List.findIdx?_eq_none_iff.mp hnone
      · cases h
    rw [encode_eq_ok ht, Except.ok.injEq] at h
    exact ⟨ht, h⟩
  · rintro ⟨ht, rfl⟩
    exact encode_eq_ok ht

/-! ### What was read is encoded back -/

theorem octet_eq {n : Nat} {b : UInt8} (h : n = b.toNat) : octet n = b := by
  rw [octet, h, UInt8.ofNat_toNat]

section Sequences

variable {b₀ b₁ b₂ b₃ : UInt8} {c : CodePoint}

theorem encodePoint_one (h : b₀.toNat < 0x80) : encodePoint (.ofNat b₀.toNat) = [b₀] := by
  rw [encodePoint, CodePoint.val_ofNat (by omega), if_pos h, octet_eq rfl]

theorem encodePoint_of_twoOctets? (h : twoOctets? b₀ b₁ = some c) : encodePoint c = [b₀, b₁] := by
  rw [twoOctets?_eq] at h
  split at h
  · obtain rfl := Option.some.inj h
    rw [encodePoint, CodePoint.val_ofNat (by omega), if_neg (by omega), if_pos (by omega),
      octet_eq (b := b₀) (by omega), octet_eq (b := b₁) (by omega)]
  · simp at h

theorem encodePoint_of_threeOctets? (h : threeOctets? b₀ b₁ b₂ = some c) :
    encodePoint c = [b₀, b₁, b₂] := by
  rw [threeOctets?_eq] at h
  simp only at h
  split at h
  · split at h
    · -- Not being overlong is what rules out the two shorter forms.
      obtain rfl := Option.some.inj h
      rw [encodePoint, CodePoint.val_ofNat (by omega), if_neg (by omega), if_neg (by omega), if_pos (by omega),
        octet_eq (b := b₀) (by omega), octet_eq (b := b₁) (by omega), octet_eq (b := b₂) (by omega)]
    · simp at h
  · simp at h

theorem encodePoint_of_fourOctets? (h : fourOctets? b₀ b₁ b₂ b₃ = some c) :
    encodePoint c = [b₀, b₁, b₂, b₃] := by
  rw [fourOctets?_eq] at h
  simp only at h
  split at h
  · split at h
    · obtain rfl := Option.some.inj h
      rw [encodePoint, CodePoint.val_ofNat (by omega), if_neg (by omega), if_neg (by omega), if_neg (by omega),
        octet_eq (b := b₀) (by omega), octet_eq (b := b₁) (by omega), octet_eq (b := b₂) (by omega),
        octet_eq (b := b₃) (by omega)]
    · simp at h
  · simp at h

end Sequences

theorem encodePoints_scanFrom (bs : Bytes) (acc : Text) :
    (scanFrom bs acc).1.flatMap encodePoint ++ (scanFrom bs acc).2
      = acc.reverse.flatMap encodePoint ++ bs := by
  fun_induction scanFrom bs acc with
  | case1 acc => rfl
  | case2 acc b₀ r₀ hb ih =>
    rw [lt_iff_toNat_lt] at hb
    rw [ih]
    simp [encodePoint_one hb]
  | case3 => rfl
  | case4 acc b₀ _ b₁ r₁ c h ih =>
    rw [ih]
    simp [encodePoint_of_twoOctets? h]
  | case5 => rfl
  | case6 acc b₀ _ b₁ _ b₂ r₂ c h ih =>
    rw [ih]
    simp [encodePoint_of_threeOctets? h]
  | case7 => rfl
  | case8 acc b₀ _ b₁ _ b₂ _ b₃ r₃ c h ih =>
    rw [ih]
    simp [encodePoint_of_fourOctets? h]
  | case9 => rfl

/-- The octets are the encoding of what a scan read, and what it left. -/
theorem encodePoints_of_scan {bs rest : Bytes} {t : Text} (h : scan bs = (t, rest)) :
    t.flatMap encodePoint ++ rest = bs := by
  have hscan := encodePoints_scanFrom bs []
  rw [← scan, h] at hscan
  simpa using hscan

theorem encode_of_scan {bs rest : Bytes} {t : Text} (h : scan bs = (t, rest)) :
    encode t = .ok (bs.take (bs.length - rest.length)) := by
  refine encode_eq_ok_iff.mpr ⟨surrogateFree_of_scan h, ?_⟩
  rw [← encodePoints_of_scan h, List.length_append, Nat.add_sub_cancel, List.take_left]

/-! ### No valid prefix is longer -/

theorem length_scanFrom_le (bs : Bytes) (acc : Text) : (scanFrom bs acc).2.length ≤ bs.length := by
  fun_induction scanFrom bs acc with
  | case2 acc b₀ r₀ hb ih =>
    rw [List.length_cons]
    omega
  | case4 acc b₀ _ b₁ r₁ c h ih =>
    rw [List.length_cons, List.length_cons]
    omega
  | case6 acc b₀ _ b₁ _ b₂ r₂ c h ih =>
    rw [List.length_cons, List.length_cons, List.length_cons]
    omega
  | case8 acc b₀ _ b₁ _ b₂ _ b₃ r₃ c h ih =>
    rw [List.length_cons, List.length_cons, List.length_cons, List.length_cons]
    omega
  | _ => exact Nat.le_refl _

theorem length_scan_le_of_valid {front : Bytes} (h : Valid front) (bs : Bytes) :
    (scan (front ++ bs)).2.length ≤ bs.length := by
  obtain ⟨t, ht⟩ := h
  obtain ⟨hfree, rfl⟩ := encode_eq_ok_iff.mp ht
  rw [scan, scanFrom_encodePoints hfree]
  exact length_scanFrom_le bs _

/-- No valid prefix is longer than what a scan read. -/
theorem valid_take_le_of_scan {bs rest : Bytes} {t : Text} (h : scan bs = (t, rest)) {n : Nat}
    (hn : n ≤ bs.length) (hvalid : Valid (bs.take n)) : n ≤ bs.length - rest.length := by
  have hrest : rest.length ≤ (bs.drop n).length := by
    have hscan := length_scan_le_of_valid hvalid (bs.drop n)
    rwa [List.take_append_drop, h] at hscan
  rw [List.length_drop] at hrest
  omega

end CanonJson.Utf8
