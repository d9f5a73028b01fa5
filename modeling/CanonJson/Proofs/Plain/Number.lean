import CanonJson.Plain.Convert
import CanonJson.Proofs.Number.Decimal
import CanonJson.Proofs.Plain.Expansion
/-!
# Numbers as plain data

Integer text is a sign and digits; it becomes the integer that it denotes, read in pieces and so whatever its length.
The way back writes the integer in one piece, which has a limit: up to 4300 digits there is a text again, with the
parts of the first, and beyond there is none. Other number text becomes a decimal, and the way back keeps its parts.
-/

namespace CanonJson

open Grammar (IntegerPart)
open Numeral (signText)

namespace Value

/-! ### Integer text -/

/-- The integer that a sign and digits denote. -/
def signedValue (negative : Bool) (ds : Text) : Int :=
  if negative then -(Digits.value ds : Int) else Digits.value ds

theorem natAbs_signedValue (negative : Bool) (ds : Text) : (signedValue negative ds).natAbs = Digits.value ds := by
  cases negative <;> simp [signedValue]

section Signed

variable {negative : Bool} {ds : Text}

theorem isIntegerText_signed (hds : ∀ c ∈ ds, c.isDigit = true) : isIntegerText (signText negative ++ ds) = true := by
  have hdigits : (ds.any fun c => c.is '.' || c.is 'e' || c.is 'E') = false := by
    rw [List.any_eq_false]
    intro c hc
    have hdigit := hds c hc
    simp [Digits.is_eq_false_of_digit hdigit '.' (by decide), Digits.is_eq_false_of_digit hdigit 'e' (by decide),
      Digits.is_eq_false_of_digit hdigit 'E' (by decide)]
  rw [isIntegerText, List.any_append, hdigits]
  cases negative <;> decide

/-- Integer text is a sign and digits. -/
theorem exists_signed_of_isIntegerText {t : Text} (ht : Grammar.Number t) (h : isIntegerText t = true) :
    ∃ negative ds, IntegerPart ds ∧ t = signText negative ++ ds := by
  obtain ⟨n, hn⟩ := Option.isSome_iff_exists.mp (isNumeral_iff.mpr ht)
  obtain ⟨negative, integer, fraction, exponentNegative, exponent⟩ := n
  obtain ⟨hint, f, e, hf, he, rfl⟩ := Numeral.spelling_of_ofText? hn
  simp only at hint hf he h ⊢
  have hnone : ∀ c ∈ signText negative ++ integer ++ f ++ e, ¬(c.is '.' || c.is 'e' || c.is 'E') = true := by
    rwa [isIntegerText, Bool.not_eq_true', List.any_eq_false] at h
  cases hf with
  | present ds digits => exact absurd rfl (hnone (CodePoint.ofChar '.') (by simp))
  | absent =>
    cases he with
    | present mark sign ds isMark =>
      refine absurd ?_ (hnone (CodePoint.ofChar mark) (by simp))
      rcases isMark with rfl | rfl <;> decide
    | absent => exact ⟨negative, integer, hint, by simp⟩

theorem numberInteger_signed (hint : IntegerPart ds) :
    numberInteger (signText negative ++ ds) = .ok (signedValue negative ds) := by
  have hdigits := (Numeral.integerPart_iff.mp hint).1
  obtain ⟨d, ds', hds, hd⟩ := Numeral.exists_cons_of_integerPart hint
  have hhalts : ds.Halts (·.is '-') := by
    rw [hds, Text.halts_cons]
    exact Digits.is_eq_false_of_digit hd '-' (by decide)
  have hbody : (signText negative ++ ds).dropWhile (·.is '-') = ds := by
    refine Text.dropWhile_append_of_halts ?_ hhalts
    cases negative <;> simp [signText]
  have hsign : Text.startsWith (signText negative ++ ds) ['-'] = negative := by
    have hne := CodePoint.is_eq_false_iff.mp (Digits.is_eq_false_of_digit hd '-' (by decide))
    cases negative <;> simp [Text.startsWith, Text.ofChars, signText, hds, List.isPrefixOf, hne.symm]
  rw [numberInteger, hbody, Digits.toInt_of_digits hdigits, hsign]
  rfl

theorem toDatum_number (t : Text) : (number t).toDatum = numberDatum t := by
  rw [toDatum, Algebra.walk_eq_fold]
  rfl

theorem toDatum_signed (hint : IntegerPart ds) :
    (number (signText negative ++ ds)).toDatum = .ok (.scalar (.int (signedValue negative ds))) := by
  have hdigits := (Numeral.integerPart_iff.mp hint).1
  rw [toDatum_number, numberDatum, if_pos (isIntegerText_signed hdigits), numberInteger_signed hint]
  rfl

theorem spelling_signed (hint : IntegerPart ds) :
    Numeral.Spelling (signText negative ++ ds) ⟨negative, ds, [], false, []⟩ :=
  ⟨hint, [], [], .absent, .absent, by simp⟩

theorem numberDenotes_signed (hint : IntegerPart ds) :
    NumberDenotes (signText negative ++ ds) (signedValue negative ds) := by
  refine ⟨_, spelling_signed hint, ?_⟩
  cases negative <;> simp [Numeral.toRat, Numeral.shift, Digits.value, signFactor, signedValue]

theorem countP_signed (hds : ∀ c ∈ ds, c.isDigit = true) :
    (signText negative ++ ds).countP CodePoint.isDigit = ds.length := by
  have hsign : (signText negative).countP CodePoint.isDigit = 0 := by cases negative <;> decide
  rw [List.countP_append, hsign, Nat.zero_add, List.countP_eq_length.mpr hds]

end Signed

/-! ### The text of an integer -/

theorem textOfInt_eq (n : Int) : Text.ofInt n = signText (decide (n < 0)) ++ Text.ofNat n.natAbs := by
  cases n with
  | ofNat n => rfl
  | negSucc n =>
    rw [decide_eq_true (Int.negSucc_lt_zero n)]
    rfl

theorem signedValue_textOfNat (n : Int) : signedValue (decide (n < 0)) (Text.ofNat n.natAbs) = n := by
  rw [signedValue, Digits.value_textOfNat]
  simp only [decide_eq_true_eq]
  split <;> omega

/-- An integer is read back from its text. -/
theorem toDatum_textOfInt (n : Int) : (number (Text.ofInt n)).toDatum = .ok (.scalar (.int n)) := by
  rw [textOfInt_eq, toDatum_signed (NumberParts.integerPart_textOfNat _), signedValue_textOfNat]

theorem numberDenotes_textOfInt (n : Int) : NumberDenotes (Text.ofInt n) n := by
  have hdenotes := @numberDenotes_signed (decide (n < 0)) _ (NumberParts.integerPart_textOfNat n.natAbs)
  rwa [← textOfInt_eq, signedValue_textOfNat] at hdenotes

/-- Digits without a zero in front denote a number below a power of ten exactly if they are not more than its zeros. -/
theorem value_lt_pow_iff {ds : Text} (hint : IntegerPart ds) {k : Nat} (hk : 0 < k) :
    Digits.value ds < Nat.pow 10 k ↔ ds.length ≤ k := by
  constructor
  · intro h
    cases hint with
    | zero => exact hk
    | positive d ds first nonzero more =>
      have hd := Digits.digitValue_pos first (CodePoint.is_eq_false_iff.mpr nonzero)
      have hle : Nat.pow 10 ds.length ≤ Digits.value (d :: ds) := by
        rw [Digits.value_cons]
        exact Nat.le_trans (Nat.le_mul_of_pos_right _ hd) (Nat.le_add_right _ _)
      exact (Nat.pow_lt_pow_iff_right (by decide)).mp (Nat.lt_of_le_of_lt hle h)
  · intro h
    have hlt := Digits.value_lt (Numeral.integerPart_iff.mp hint).1
    exact Nat.lt_of_lt_of_le hlt (Nat.pow_le_pow_right (by decide) h)

theorem toValue_signed_of_short {negative : Bool} {ds : Text} (hint : IntegerPart ds) (h : ds.length ≤ Digits.limit) :
    (Scalar.int (signedValue negative ds)).toValue = .ok (.number (Text.ofInt (signedValue negative ds))) := by
  refine Scalar.toValue_of_lt ?_
  rw [natAbs_signedValue]
  exact (value_lt_pow_iff hint (by decide)).mpr h

theorem toValue_signed_of_long {negative : Bool} {ds : Text} (hint : IntegerPart ds) (h : Digits.limit < ds.length) :
    (Scalar.int (signedValue negative ds)).toValue = .error .integerTooLong := by
  refine Scalar.toValue_of_le ?_
  rw [natAbs_signedValue]
  exact Nat.le_of_not_lt fun hlt => absurd ((value_lt_pow_iff hint (by decide)).mp hlt) (Nat.not_le_of_lt h)

/-- The text of the integer that integer text denotes has the same parts. -/
theorem parts_textOfInt {negative : Bool} {ds : Text} (hint : IntegerPart ds) :
    ∃ p, NumberParts.ofText? (signText negative ++ ds) = some p
      ∧ NumberParts.ofText? (Text.ofInt (signedValue negative ds)) = some p := by
  have hdenotes := @numberDenotes_signed negative ds hint
  have hdenotes' := numberDenotes_textOfInt (signedValue negative ds)
  have hnumber := NumberParts.number_of_denotes hdenotes
  obtain ⟨p, hp, -⟩ := NumberParts.exists_reduced_of_number hnumber
  refine ⟨p, hp, ?_⟩
  rw [← hp, NumberParts.ofText?_eq_iff_denotes hnumber (NumberParts.number_of_denotes hdenotes')]
  exact ⟨_, hdenotes', hdenotes⟩

end Value

open Value

/-- Integer text of any length becomes the integer that it denotes. If it has at most 4300 digits, the integer becomes
text with the same parts again, whose digits have no zero in front; if it has more, the integer is refused. -/
theorem toValue_toDatum_integer (t : Text) (ht : Grammar.Number t) (hint : isIntegerText t = true) :
    ∃ n : Int, (number t).toDatum = .ok (.scalar (.int n)) ∧ NumberDenotes t n
      ∧ (t.countP CodePoint.isDigit ≤ 4300 →
        ∃ u, (Datum.scalar (.int n)).toValue = .ok (.number u)
          ∧ (∀ g : Graph, g.expand? = some (.scalar (.int n)) → g.toValue = .ok (.number u))
          ∧ (∃ p, NumberParts.ofText? t = some p ∧ NumberParts.ofText? u = some p)
          ∧ ∃ negative ds, IntegerPart ds ∧ u = signText negative ++ ds)
      ∧ (4300 < t.countP CodePoint.isDigit →
        (Datum.scalar (.int n)).toValue = .error .integerTooLong
          ∧ ∀ g : Graph, g.expand? = some (.scalar (.int n)) → g.toValue = .error .integerTooLong) := by
  obtain ⟨negative, ds, hds, rfl⟩ := exists_signed_of_isIntegerText ht hint
  rw [countP_signed (Numeral.integerPart_iff.mp hds).1]
  refine ⟨signedValue negative ds, toDatum_signed hds, numberDenotes_signed hds, ?_, ?_⟩
  · intro hshort
    have hvalue := @toValue_signed_of_short negative ds hds hshort
    refine ⟨_, hvalue, fun g hg => (Graph.toValue_of_expand?_scalar hg).trans hvalue, parts_textOfInt hds, ?_⟩
    exact ⟨_, _, NumberParts.integerPart_textOfNat _, textOfInt_eq _⟩
  · intro hlong
    have hvalue := @toValue_signed_of_long negative ds hds hlong
    exact ⟨hvalue, fun g hg => (Graph.toValue_of_expand?_scalar hg).trans hvalue⟩

/-- A short negative integer, as a graph of its own. -/
theorem toValue_toDatum_integer_negative :
    let t : Text := Text.ofChars ['-', '1', '2', '0']
    Grammar.Number t ∧ isIntegerText t = true ∧ t.countP CodePoint.isDigit ≤ 4300
      ∧ ∃ n u p, (number t).toDatum = .ok (.scalar (.int n))
        ∧ (⟨0, #v[], .scalar (.int n)⟩ : Graph).toValue = .ok (.number u)
        ∧ NumberParts.ofText? t = some p ∧ NumberParts.ofText? u = some p := by
  intro t
  have ht : Grammar.Number t := isNumeral_iff.mp (by decide)
  have hint : isIntegerText t = true := by decide
  have hshort : t.countP CodePoint.isDigit ≤ 4300 := by decide
  obtain ⟨n, hdatum, -, hok, -⟩ := toValue_toDatum_integer t ht hint
  obtain ⟨u, -, hgraph, ⟨p, hp, hp'⟩, -⟩ := hok hshort
  exact ⟨ht, hint, hshort, n, u, p, hdatum, hgraph _ rfl, hp, hp'⟩

/-- The power of ten with 4300 zeros, which is made into an integer and refused as one. -/
theorem not_toValue_of_long_integer :
    let t : Text := CodePoint.ofChar '1' :: List.replicate 4300 (CodePoint.ofChar '0')
    Grammar.Number t ∧ isIntegerText t = true
      ∧ ∃ n, (number t).toDatum = .ok (.scalar (.int n)) ∧ NumberDenotes t n
        ∧ (Datum.scalar (.int n)).toValue = .error .integerTooLong
        ∧ (⟨0, #v[], .scalar (.int n)⟩ : Graph).toValue = .error .integerTooLong := by
  intro t
  have hds : IntegerPart t := by
    refine .positive _ _ (by decide) (by decide) fun c hc => ?_
    rw [List.eq_of_mem_replicate hc]
    decide
  have hlong : Digits.limit < t.length := by
    rw [List.length_cons, List.length_replicate]
    decide
  have hdenotes : NumberDenotes t (signedValue false t) := @numberDenotes_signed false t hds
  have hvalue := @toValue_signed_of_long false t hds hlong
  refine ⟨NumberParts.number_of_denotes hdenotes, @isIntegerText_signed false t (Numeral.integerPart_iff.mp hds).1,
    signedValue false t, @toDatum_signed false t hds, hdenotes, hvalue, ?_⟩
  exact (@Graph.toValue_of_expand?_scalar ⟨0, #v[], _⟩ _ rfl).trans hvalue

end CanonJson
