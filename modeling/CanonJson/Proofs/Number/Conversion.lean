import CanonJson.Proofs.Number.NormalLayout
import Mathlib.Data.Nat.Digits.Defs
/-!
# Digits to a number and back

Reading cuts digits into pieces from the front, so the last piece may be short; writing cuts the number from
the back, so the first piece may be short and every other one is filled up with zeros. Neither cut shows.
Digits are compared here through the list of their values, the last digit first, because that is the list of
which the digits of a number in base ten are known to be the only ones: digits that do not begin with a zero are
determined by the number that they denote (`eq_of_value_eq`).
-/

namespace CanonJson.Digits

open Grammar (Digits IntegerPart)
open NumberParts (stripLeft zeros)

def digitValues (t : Text) : List Nat :=
  (t.map CodePoint.digitValue).reverse

/-- The digit of a value below ten. -/
def ofDigitValue (d : Nat) : CodePoint :=
  .ofNat (0x30 + d)

theorem ofDigitValue_digitValue {c : CodePoint} (h : c.isDigit = true) : ofDigitValue c.digitValue = c := by
  have hval : 0x30 + c.digitValue = c.val := by
    rw [isDigit_iff] at h
    unfold CodePoint.digitValue
    omega
  rw [ofDigitValue, hval, CodePoint.ofNat_val]

theorem value_eq_ofDigits (t : Text) : value t = Nat.ofDigits 10 (digitValues t) := by
  induction t with
  | nil => rfl
  | cons c t ih =>
    have hvalues : digitValues (c :: t) = digitValues t ++ [c.digitValue] := by
      rw [digitValues, List.map_cons, List.reverse_cons, digitValues]
    have hlength : (digitValues t).length = t.length := by
      rw [digitValues, List.length_reverse, List.length_map]
    rw [value_cons, ih, hvalues, Nat.ofDigits_append, Nat.ofDigits_singleton, hlength, Nat.add_comm]
    rfl

section Digits

variable {s t : Text} (hs : ∀ c ∈ s, c.isDigit = true) (ht : ∀ c ∈ t, c.isDigit = true)

include ht

theorem map_ofDigitValue_digitValues : (digitValues t).reverse.map ofDigitValue = t := by
  rw [digitValues, List.reverse_reverse, List.map_map]
  exact (List.map_congr_left fun c hc => ofDigitValue_digitValue (ht c hc)).trans (List.map_id t)

/-- Without a zero in front the values are the digits that the number has in base ten. -/
theorem digits_value (hfront : t.Halts (·.is '0')) : Nat.digits 10 (value t) = digitValues t := by
  rw [value_eq_ofDigits]
  refine Nat.digits_ofDigits 10 (by decide) _ ?_ ?_
  · intro d hd
    obtain ⟨c, hc, rfl⟩ := List.mem_map.mp (List.mem_reverse.mp hd)
    exact digitValue_lt_ten (ht c hc)
  · intro hne
    cases t with
    | nil => exact absurd rfl hne
    | cons c t =>
      have hpos := digitValue_pos (ht c (by simp)) (Text.halts_cons.mp hfront)
      simp only [digitValues, List.map_cons, List.reverse_cons, List.getLast_append_singleton]
      exact Nat.pos_iff_ne_zero.mp hpos

theorem value_pos (hne : t ≠ []) (hfront : t.Halts (·.is '0')) : 0 < value t := by
  refine Nat.pos_of_ne_zero fun hzero => hne ?_
  have hvalues := digits_value ht hfront
  rw [hzero, Nat.digits_zero] at hvalues
  rw [← map_ofDigitValue_digitValues ht, ← hvalues]
  rfl

include hs

theorem eq_of_value_eq (hfront : s.Halts (·.is '0')) (hfront' : t.Halts (·.is '0')) (h : value s = value t) :
    s = t := by
  have hvalues : digitValues s = digitValues t := by
    rw [← digits_value hs hfront, ← digits_value ht hfront', h]
  rw [← map_ofDigitValue_digitValues hs, ← map_ofDigitValue_digitValues ht, hvalues]

end Digits

/-! ### Zeros in front -/

theorem value_stripLeft (t : Text) : value (stripLeft t) = value t := by
  have hsplit := congrArg value (NumberParts.eq_zeros_append_stripLeft t)
  rw [value_append, zeros, value_replicate_zero, Nat.mul_zero, Nat.zero_add] at hsplit
  exact hsplit.symm

/-- The digits without the zeros in front of them, or one zero if no other digit is left. -/
def withoutZeros (t : Text) : Text :=
  if stripLeft t = [] then [CodePoint.ofChar '0'] else stripLeft t

/-- The digits of the number that digits denote are those digits, up to zeros in front. -/
theorem ofNat_value {t : Text} (ht : ∀ c ∈ t, c.isDigit = true) : ofNat (value t) = withoutZeros t := by
  have hstripped : ∀ c ∈ stripLeft t, c.isDigit = true := fun c hc =>
    ht c ((List.dropWhile_suffix (l := t) (·.is '0')).subset hc)
  rw [← value_stripLeft, withoutZeros]
  split
  · rename_i hnil
    rw [hnil]
    exact ofNat_zero
  · rename_i hne
    have hhalts := Text.halts_dropWhile (·.is '0') t
    have hpos := value_pos hstripped hne hhalts
    exact eq_of_value_eq (digits_ofNat _).2 hstripped (halts_ofNat hpos) hhalts (value_ofNat _)

/-- Reading digits gives the number that they denote in base ten, and writing it gives the digits back without the
zeros in front of them; a number that is written has no zero in front, and reading gives it back. -/
theorem toInt_ofInt?_inverse :
    (∀ t : Text, (∀ c ∈ t, c.isDigit = true) →
      toInt t = .ok (Nat.ofDigits 10 (t.map CodePoint.digitValue).reverse : Nat)
      ∧ ofInt? (Nat.ofDigits 10 (t.map CodePoint.digitValue).reverse : Nat) = some (withoutZeros t))
    ∧ ∀ n : Nat, ∃ t, ofInt? n = some t ∧ IntegerPart t ∧ toInt t = .ok (n : Int) := by
  constructor
  · intro t ht
    have hvalue : Nat.ofDigits 10 (t.map CodePoint.digitValue).reverse = value t := (value_eq_ofDigits t).symm
    rw [hvalue]
    exact ⟨toInt_of_digits ht, congrArg some (ofNat_value ht)⟩
  · intro n
    refine ⟨ofNat n, rfl, integerPart_ofNat n, ?_⟩
    rw [toInt_of_digits (digits_ofNat n).2, value_ofNat]

/-- Zeros that fill a piece and a half stand in front of two digits. -/
theorem toInt_ofInt?_inverse_zeros :
    toInt (zeros 1500 ++ Text.ofChars ['4', '2']) = .ok 42
      ∧ ofInt? 42 = some (Text.ofChars ['4', '2']) := by
  have hdigits : ∀ c ∈ zeros 1500 ++ Text.ofChars ['4', '2'], c.isDigit = true := by
    intro c hc
    rcases List.mem_append.mp hc with hc | hc
    · exact NumberParts.isDigit_of_mem_zeros c hc
    · have hc' : c = CodePoint.ofChar '4' ∨ c = CodePoint.ofChar '2' := by simpa [Text.ofChars] using hc
      rcases hc' with rfl | rfl <;> decide
  have hvalue : value (zeros 1500 ++ Text.ofChars ['4', '2']) = 42 := by
    rw [value_append, zeros, value_replicate_zero]
    decide
  have hbare : withoutZeros (zeros 1500 ++ Text.ofChars ['4', '2']) = Text.ofChars ['4', '2'] := by
    have hhalts : (Text.ofChars ['4', '2']).Halts (·.is '0') := Text.halts_cons.mpr (by decide)
    rw [withoutZeros, NumberParts.stripLeft_zeros hhalts]
    decide
  have hboth := toInt_ofInt?_inverse.1 _ hdigits
  have hofDigits := value_eq_ofDigits (zeros 1500 ++ Text.ofChars ['4', '2'])
  rw [digitValues, hvalue] at hofDigits
  rw [← hofDigits, hbare] at hboth
  exact hboth

end CanonJson.Digits
