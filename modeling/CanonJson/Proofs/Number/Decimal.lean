import CanonJson.Number.Decimal
import CanonJson.Proofs.Number.Rational
/-!
# Decimals keep the value of number text

Number text is read as a decimal with all its digits as the coefficient, so the decimal is worth exactly what the
text denotes. Its scientific string is again number text, in any of its layouts, and denotes the same number. So
number text that becomes a decimal and then text again keeps its parts, although it may be spelled differently.
-/

namespace CanonJson

open Grammar (Digits IntegerPart)
open Numeral (signText FractionSpelling ExponentSpelling)

namespace Decimal

/-! ### Reading number text -/

/-- Numerals are spelled in ASCII, without blanks and underscores. -/
theorem val_of_mem_spelling {t : Text} {n : Numeral} (h : Numeral.Spelling t n) :
    ∀ c ∈ t, 0x2B ≤ c.val ∧ c.val ≤ 0x39 ∨ c.val = 0x45 ∨ c.val = 0x65 := by
  have hdigit : ∀ c : CodePoint, c.isDigit = true →
      0x2B ≤ c.val ∧ c.val ≤ 0x39 ∨ c.val = 0x45 ∨ c.val = 0x65 := by
    intro c hc
    rw [Digits.isDigit_iff] at hc
    omega
  obtain ⟨negative, integer, fraction, exponentNegative, exponent⟩ := n
  obtain ⟨hint, f, e, hf, he, rfl⟩ := h
  simp only at hint hf he
  intro c hc
  simp only [List.mem_append] at hc
  rcases hc with ((hc | hc) | hc) | hc
  · cases negative with
    | false => cases hc
    | true =>
      obtain rfl := List.mem_singleton.mp hc
      decide
  · exact hdigit c ((Numeral.integerPart_iff.mp hint).1 c hc)
  · cases hf with
    | absent => cases hc
    | present ds digits =>
      rcases List.mem_cons.mp hc with rfl | hc
      · decide
      · exact hdigit c (digits.2 c hc)
  · cases he with
    | absent => cases hc
    | present mark sign ds isMark isSign digits =>
      rw [List.cons_append, List.mem_cons, List.mem_append] at hc
      rcases hc with rfl | hc | hc
      · rcases isMark with rfl | rfl <;> decide
      · rcases isSign with rfl | rfl | rfl
        · cases hc
        · obtain rfl := List.mem_singleton.mp hc
          decide
        · obtain rfl := List.mem_singleton.mp hc
          decide
      · exact hdigit c (digits.2 c hc)

theorem mapM_eq_self {f : CodePoint → Option CodePoint} {t : Text} (h : ∀ c ∈ t, f c = some c) :
    t.mapM f = some t := by
  induction t with
  | nil => rfl
  | cons c t ih =>
    rw [List.mapM_cons, h c (by simp), ih fun d hd => h d (by simp [hd])]
    rfl

/-- Nothing is trimmed, left out or converted before a numeral is read. -/
theorem foldScripts?_of_spelling {t : Text} {n : Numeral} (h : Numeral.Spelling t n) :
    foldScripts? ((Text.trim Text.isBlank t).filter fun c => !c.is '_') = some t := by
  have hval := val_of_mem_spelling h
  have hblank : ∀ c ∈ t, Text.isBlank c = false := by
    intro c hc
    have := hval c hc
    simp only [Text.isBlank, Bool.or_eq_false_iff, Bool.and_eq_false_iff, decide_eq_false_iff_not,
      beq_eq_false_iff_ne]
    omega
  have hline : ∀ c ∈ t, (!c.is '_') = true := by
    intro c hc
    have := hval c hc
    have hne : c.val ≠ 0x5F := by omega
    simpa [CodePoint.is] using hne
  rw [Digits.trim_of_forall hblank, List.filter_eq_self.mpr hline, foldScripts?]
  refine mapM_eq_self fun c hc => if_pos ?_
  have := hval c hc
  omega

theorem readSign_of_digit {negative : Bool} {c : CodePoint} (hc : c.isDigit = true) (t : Text) :
    readSign (signText negative ++ c :: t) = (negative, c :: t) := by
  have hminus := Digits.is_eq_false_of_digit hc '-' (by decide)
  have hplus := Digits.is_eq_false_of_digit hc '+' (by decide)
  cases negative <;> simp [readSign, signText, hminus, hplus]

theorem isWord_of_digit {c : CodePoint} (hc : c.isDigit = true) (t : Text) {w : String}
    (hw : (Text.ofString w).Halts CodePoint.isDigit) : isWord (c :: t) w = false := by
  rw [isWord, decide_eq_false_iff_not]
  intro h
  have hlower : c.toLowerAscii = c := by
    rw [Digits.isDigit_iff] at hc
    exact if_neg (by omega)
  have hhead := hw c.toLowerAscii (by rw [← h]; rfl)
  rw [hlower, hc] at hhead
  cases hhead

theorem readPayload?_of_digit {c : CodePoint} (hc : c.isDigit = true) (t : Text) {w : String}
    (hw : (Text.ofString w).Halts CodePoint.isDigit) (hne : w.length ≠ 0) : readPayload? w (c :: t) = none := by
  obtain ⟨k, hk⟩ := Nat.exists_eq_succ_of_ne_zero hne
  simp only [readPayload?, hk, List.take_succ_cons, isWord_of_digit hc _ hw, Bool.false_and, Bool.false_eq_true,
    ↓reduceIte]

theorem readExponent?_of_spelling {e ds : Text} {negative : Bool} (h : ExponentSpelling e negative ds) :
    readExponent? e = some (if negative then -(Digits.value ds : Int) else Digits.value ds) := by
  cases h with
  | absent => rfl
  | present mark sign ds isMark isSign digits =>
    have hmark : ((CodePoint.ofChar mark).is 'e' || (CodePoint.ofChar mark).is 'E') = true := by
      rcases isMark with rfl | rfl <;> decide
    have hread : readSign (Text.ofChars sign ++ ds) = (sign == ['-'], ds) := by
      obtain ⟨d, ds, rfl⟩ := List.exists_cons_of_ne_nil digits.1
      have hd : d.isDigit = true := digits.2 d (by simp)
      rcases isSign with rfl | rfl | rfl
      · exact @readSign_of_digit false d hd ds
      · rfl
      · exact @readSign_of_digit true d hd ds
    have hdigits : (ds.isEmpty || !ds.all CodePoint.isDigit) = false := by
      simpa using ⟨digits.1, digits.2⟩
    simp only [readExponent?, List.cons_append, hmark, hread, hdigits, Bool.false_eq_true, ↓reduceIte]

theorem readMagnitude?_of_spelling {n : Numeral} {f e : Text} (hint : IntegerPart n.integer)
    (hf : FractionSpelling f n.fraction) (he : ExponentSpelling e n.exponentNegative n.exponent) :
    readMagnitude? (n.integer ++ (f ++ e))
      = some (Digits.value (n.integer ++ n.fraction), n.shift - n.fraction.length) := by
  obtain ⟨negative, integer, fraction, exponentNegative, exponent⟩ := n
  simp only at hint hf he
  have hdigits := (Numeral.integerPart_iff.mp hint).1
  have hne : integer.isEmpty = false := by
    obtain ⟨d, ds, rfl, -⟩ := Numeral.exists_cons_of_integerPart hint
    rfl
  have hread := readExponent?_of_spelling he
  have hspan : ∀ {ds rest : Text}, (∀ c ∈ ds, c.isDigit = true) → rest.Halts CodePoint.isDigit →
      spanDigits (ds ++ rest) = (ds, rest) := Numeral.spanDigits_append
  have hpoint : e.Halts (·.is '.') := Numeral.halts_exponent he (by decide) (by decide)
  have hstop : e.Halts CodePoint.isDigit := Numeral.halts_exponent he (by decide) (by decide)
  cases hf with
  | absent =>
    have hinteger : spanDigits (integer ++ e) = (integer, e) := hspan hdigits hstop
    cases e with
    | nil =>
      rw [List.append_nil] at hinteger
      simp [readMagnitude?, hinteger, hread, hne, Numeral.shift]
    | cons c e =>
      have hc := Text.halts_cons.mp hpoint
      simp [readMagnitude?, hinteger, hc, hread, hne, Numeral.shift]
  | present ds digits =>
    have hinteger : spanDigits (integer ++ CodePoint.ofChar '.' :: (fraction ++ e))
        = (integer, CodePoint.ofChar '.' :: (fraction ++ e)) := hspan hdigits (Text.halts_cons.mpr (by decide))
    have hfraction : spanDigits (fraction ++ e) = (fraction, e) := hspan digits.2 hstop
    simp [readMagnitude?, hinteger, hfraction, hread, hne, Numeral.shift]

/-- Number text is read as a decimal with all its digits as the coefficient. -/
theorem ofText_of_spelling {t : Text} {n : Numeral} (h : Numeral.Spelling t n) :
    ofText t = finite? n.negative (Digits.value (n.integer ++ n.fraction)) (n.shift - n.fraction.length) := by
  have hfold := foldScripts?_of_spelling h
  obtain ⟨hint, f, e, hf, he, rfl⟩ := h
  have hmagnitude := readMagnitude?_of_spelling hint hf he
  -- The number begins with a digit, so it is no word.
  obtain ⟨c, ds, hi, hc⟩ := Numeral.exists_cons_of_integerPart hint
  have hletter : ∀ w ∈ ["inf", "infinity", "nan", "snan"], (Text.ofString w).Halts CodePoint.isDigit := by
    simp [Text.ofString, Text.ofChars]
    decide
  simp only [List.forall_mem_cons, List.not_mem_nil, false_implies, implies_true, and_true] at hletter
  obtain ⟨hinf, hinfinity, hnan, hsnan⟩ := hletter
  rw [hi, List.cons_append] at hmagnitude
  rw [hi, List.append_assoc, List.append_assoc, List.cons_append] at hfold
  rw [ofText, hi, List.append_assoc, List.append_assoc, List.cons_append, hfold]
  simp only [readSign_of_digit hc, isWord_of_digit hc _ hinf, isWord_of_digit hc _ hinfinity,
    readPayload?_of_digit hc _ hnan (by decide), readPayload?_of_digit hc _ hsnan (by decide), hmagnitude,
    Bool.or_self, Bool.false_eq_true, ↓reduceIte]

/-! ### The scientific string -/

/-- The number that a sign, a coefficient and a power of ten stand for. -/
def scaled (negative : Bool) (coefficient : Nat) (exponent : Int) : ℚ :=
  signFactor negative * coefficient * 10 ^ exponent

section Layouts

variable {negative negative' : Bool} {ds e es : Text} {exponent : Int}

/-- Digits without a point. -/
theorem numberDenotes_digits (hint : IntegerPart ds) (he : ExponentSpelling e negative' es)
    (hexponent : Numeral.shift ⟨negative, ds, [], negative', es⟩ = exponent) :
    NumberDenotes (signText negative ++ (ds ++ e)) (scaled negative (Digits.value ds) exponent) := by
  refine ⟨⟨negative, ds, [], negative', es⟩, ⟨hint, [], e, .absent, he, by simp⟩, ?_⟩
  rw [Numeral.toRat_eq, hexponent, scaled, List.append_nil, List.length_nil, Int.natCast_zero, Int.sub_zero]

/-- Digits that are cut by a point. -/
theorem numberDenotes_cut {k : Nat} (hint : IntegerPart (ds.take k)) (hds : ∀ c ∈ ds, c.isDigit = true)
    (hk : k < ds.length) (he : ExponentSpelling e negative' es)
    (hexponent : Numeral.shift ⟨negative, ds.take k, ds.drop k, negative', es⟩ - (ds.length - k : Nat) = exponent) :
    NumberDenotes (signText negative ++ (ds.take k ++ CodePoint.ofChar '.' :: ds.drop k ++ e))
      (scaled negative (Digits.value ds) exponent) := by
  have hfraction : Digits (ds.drop k) := by
    refine ⟨?_, fun c hc => hds c (List.mem_of_mem_drop hc)⟩
    rw [ne_eq, List.drop_eq_nil_iff]
    omega
  refine ⟨⟨negative, ds.take k, ds.drop k, negative', es⟩, ⟨hint, _, e, .present _ hfraction, he, ?_⟩, ?_⟩
  · simp only [List.append_assoc, List.cons_append]
  · rw [Numeral.toRat_eq, List.take_append_drop, List.length_drop, hexponent, scaled]

end Layouts

theorem integerPart_take {ds : Text} (h : IntegerPart ds) {k : Nat} (hk : k ≠ 0) : IntegerPart (ds.take k) := by
  obtain ⟨k, rfl⟩ := Nat.exists_eq_succ_of_ne_zero hk
  cases h with
  | zero =>
    rw [List.take_succ_cons, List.take_nil]
    exact .zero
  | positive d ds first nonzero more =>
    exact .positive d (ds.take k) first nonzero fun c hc => more c (List.mem_of_mem_take hc)

/-- What stands before the point of a number with so many places behind it. -/
theorem integerPart_zeroFill {ds : Text} (h : IntegerPart ds) (places : Nat) :
    IntegerPart ((Digits.zeroFill (places + 1) ds).take ((Digits.zeroFill (places + 1) ds).length - places)) := by
  by_cases hlength : ds.length ≤ places
  · -- All digits stand behind the point, and one of the zeros before it.
    obtain ⟨k, hk⟩ : ∃ k, places + 1 - ds.length = k + 1 := ⟨places - ds.length, by omega⟩
    have hone : (Digits.zeroFill (places + 1) ds).length - places = 1 := by
      rw [Digits.length_zeroFill (by omega)]
      omega
    rw [hone, Digits.zeroFill, hk, List.replicate_succ, List.cons_append, List.take_succ_cons, List.take_zero]
    exact .zero
  · have hself : Digits.zeroFill (places + 1) ds = ds := by
      rw [Digits.zeroFill, Nat.sub_eq_zero_of_le (by omega)]
      rfl
    rw [hself]
    exact integerPart_take h (by omega)

theorem numberDenotes_magnitudeText (negative : Bool) (coefficient : Nat) (exponent : Int) :
    NumberDenotes (signText negative ++ magnitudeText coefficient exponent) (scaled negative coefficient exponent) := by
  have hint := NumberParts.integerPart_textOfNat coefficient
  have hdigits := Digits.digits_textOfNat coefficient
  have hvalue := Digits.value_textOfNat coefficient
  simp only [magnitudeText]
  generalize Text.ofNat coefficient = ds at *
  subst hvalue
  have hpos : 0 < ds.length := List.length_pos_iff.mpr hdigits.1
  split
  · rename_i hplain
    have hnone : ∀ i f, Numeral.shift ⟨negative, i, f, false, []⟩ = 0 := fun _ _ => rfl
    split
    · rename_i hplaces
      have hdenotes := @numberDenotes_digits negative false ds [] [] exponent hint .absent (by rw [hnone]; omega)
      rwa [List.append_nil] at hdenotes
    · rename_i hplaces
      have hpadded := @Digits.digits_zeroFill ((-exponent).toNat + 1) ds hdigits
      have hlength : (-exponent).toNat < (Digits.zeroFill ((-exponent).toNat + 1) ds).length := by
        rw [Digits.zeroFill, List.length_append, List.length_replicate]
        omega
      have hdenotes := @numberDenotes_cut negative false _ [] [] exponent _
        (integerPart_zeroFill hint (-exponent).toNat) hpadded.2 (by omega) .absent (by rw [hnone]; omega)
      rwa [List.append_nil, Digits.value_zeroFill] at hdenotes
  · -- The power of ten counts from the first digit.
    have hpower := @NumberParts.exponentSpelling_power 'E' (.inr rfl) _
      (Digits.digits_textOfNat (exponent + ds.length - 1).natAbs) (exponent + ds.length - 1)
    have hshift : ∀ i f, Numeral.shift ⟨negative, i, f, _, _⟩ = exponent + ds.length - 1 := fun i f =>
      NumberParts.shift_power negative i f (Digits.value_textOfNat (exponent + ds.length - 1).natAbs)
    rw [List.append_assoc]
    split
    · rename_i hlength
      exact numberDenotes_cut (integerPart_take hint one_ne_zero) hdigits.2 hlength hpower (by rw [hshift]; omega)
    · rename_i hlength
      exact numberDenotes_digits hint hpower (by rw [hshift]; omega)

theorem signed_eq (negative : Bool) (t : Text) : signed negative t = signText negative ++ t := by
  cases negative <;> rfl

/-- The scientific string of a finite decimal is number text that denotes what the decimal is worth. -/
theorem numberDenotes_toText (negative : Bool) (coefficient : Nat) (exponent : Int) :
    NumberDenotes (finite negative coefficient exponent).toText (scaled negative coefficient exponent) := by
  rw [toText, signed_eq]
  exact numberDenotes_magnitudeText negative coefficient exponent

/-- Number text that is read as a decimal has the parts of the decimal's text. -/
theorem parts_toText_of_ofText {t : Text} {d : Decimal} (ht : Grammar.Number t) (hd : ofText t = .ok d) :
    d.isFinite = true ∧ Grammar.Number d.toText ∧ NumberParts.ofText? d.toText = NumberParts.ofText? t := by
  obtain ⟨n, hn⟩ := Option.isSome_iff_exists.mp (isNumeral_iff.mpr ht)
  have hspelling := Numeral.spelling_of_ofText? hn
  rw [ofText_of_spelling hspelling, finite?] at hd
  split at hd
  · cases hd
  · obtain rfl := Except.ok.inj hd
    have hdenotes := numberDenotes_toText n.negative (Digits.value (n.integer ++ n.fraction))
      (n.shift - n.fraction.length)
    rw [scaled, ← Numeral.toRat_eq] at hdenotes
    have hnumber := NumberParts.number_of_denotes hdenotes
    exact ⟨rfl, hnumber, (NumberParts.ofText?_eq_iff_denotes ht hnumber).mpr ⟨_, hdenotes, n, hspelling, rfl⟩⟩

end Decimal

end CanonJson
