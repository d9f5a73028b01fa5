import CanonJson.Number.Shortest
import CanonJson.Proofs.Number.Rational
/-!
# The text of a binary number is number text

The digits of a positive finite number are those of an integer in the interval of what rounds to it, so the integer
is positive, and without the zeros behind them its digits are significant. Each of the layouts then spells the sign,
these digits and the place of the first of them. So the text of a finite number is number text, with an exact value
of its own.
-/

namespace CanonJson.Binary64

open Grammar (Digits IntegerPart)
open NumberParts (Significant SpelledBy zeros)

/-! ### The digits are those of a positive integer -/

theorem low_interval_pos {x : Binary64} (h : x.significand ≠ 0) : 0 < x.interval.low := by
  have hup : 0 < Nat.pow 2 (x.exponent - 2).toNat := Nat.two_pow_pos _
  have hbelow : (if x.isNarrowBelow = true then 1 else 2) ≤ 2 := by
    split <;> omega
  exact Nat.mul_pos (by omega) hup

theorem low_rescale_pos {i : Interval} (h : 0 < i.low) (step : Int) : 0 < (i.rescale step).low :=
  Nat.mul_pos h (Digits.pow_ten_pos _)

theorem pos_of_contains {i : Interval} (h : 0 < i.low) {n : Nat} (hn : i.contains n = true) : 0 < n := by
  have hle : i.low ≤ n * i.den := by
    unfold Interval.contains at hn
    simp only at hn
    split at hn <;> simp only [Bool.and_eq_true, decide_eq_true_eq] at hn
    · exact hn.1
    · exact hn.1.le
  exact Nat.pos_of_mul_pos_right (Nat.lt_of_lt_of_le h hle)

theorem contains_of_nearest? {i : Interval} {n : Nat} (h : i.nearest? = some n) : i.contains n = true := by
  unfold Interval.nearest? at h
  simp only at h
  split at h
  · rename_i hdown hup
    split at h
    · obtain rfl := Option.some.inj h
      exact hdown
    · split at h
      · obtain rfl := Option.some.inj h
        exact hup
      · split at h <;> obtain rfl := Option.some.inj h
        · exact hdown
        · exact hup
  · rename_i hdown hup
    obtain rfl := Option.some.inj h
    exact hdown
  · rename_i hdown hup
    obtain rfl := Option.some.inj h
    exact hup
  · cases h

theorem significant_stripRight {n : Nat} (hn : 0 < n) : Significant (NumberParts.stripRight (Text.ofNat n)) := by
  have hdigits := Digits.digits_textOfNat n
  have hkept := NumberParts.stripRight_isPrefix (Text.ofNat n)
  refine ⟨⟨?_, fun c hc => hdigits.2 c (hkept.subset hc)⟩,
    NumberParts.halts_of_isPrefix hkept (Digits.halts_textOfNat hn), ?_⟩
  · -- Digits that are all zeros denote nothing but zero.
    intro hnil
    obtain ⟨k, hk⟩ := NumberParts.exists_eq_stripRight_append (Text.ofNat n)
    have hvalue := Digits.value_textOfNat n
    rw [hk, hnil, List.nil_append] at hvalue
    have hzero := Digits.value_replicate_zero k
    rw [zeros] at hvalue
    omega
  · rw [NumberParts.stripRight, List.reverse_reverse]
    exact Text.halts_dropWhile _ _

/-- The digits are significant, unless no length of digits was enough to tell the number from its neighbours. -/
theorem significant_shortest {x : Binary64} (h : x.significand ≠ 0) :
    x.shortest = ([], 0) ∨ Significant x.shortest.1 := by
  unfold shortest
  simp only
  generalize hfound : (List.range 17).findSome? _ = found
  cases found with
  | none => exact .inl (by decide)
  | some p =>
    obtain ⟨d, last⟩ := p
    obtain ⟨k, -, hk⟩ := List.exists_of_findSome?_eq_some hfound
    obtain ⟨n, hn, hp⟩ := Option.map_eq_some_iff.mp hk
    obtain ⟨rfl, rfl⟩ := Prod.mk.inj hp
    exact .inr (significant_stripRight
      (pos_of_contains (low_rescale_pos (low_interval_pos h) _) (contains_of_nearest? hn)))

/-! ### The layouts -/

/-- Digits in front of the point, with zeros that are not significant on both of its sides. -/
theorem spelledBy_whole {ds : Text} (negative : Bool) (hds : Significant ds) (k : Nat) :
    SpelledBy (Numeral.signText negative ++ (ds ++ zeros k ++ Text.ofChars ['.', '0']))
      ⟨negative, ds, (ds.length + k : Nat)⟩ := by
  have hinteger : IntegerPart (ds ++ zeros k) := by
    refine NumberParts.integerPart_of_halts ⟨by simp [hds.digits.1], fun c hc => ?_⟩
      (hds.front.append fun hnil => absurd hnil hds.digits.1)
    rcases List.mem_append.mp hc with hc | hc
    · exact hds.digits.2 c hc
    · exact NumberParts.isDigit_of_mem_zeros c hc
  have hfraction : Digits (zeros 1) := ⟨by decide, NumberParts.isDigit_of_mem_zeros⟩
  refine ⟨⟨negative, ds ++ zeros k, zeros 1, false, []⟩,
    ⟨hinteger, _, [], .present _ hfraction, .absent, ?_⟩, ?_⟩
  · simp only [List.append_assoc, List.append_nil]
    rfl
  · have hzeros : ds ++ zeros k ++ zeros 1 = zeros 0 ++ ds ++ zeros (k + 1) := by
      simp [zeros, List.replicate_succ']
    rw [NumberParts.ofNumeral_eq hds hzeros]
    simp [zeros, Numeral.shift, Digits.value]

/-- The exponent as the text of a number shows it: always with a sign, and with two digits at least. -/
theorem exponentSpelling_leading (leading : Int) :
    Numeral.ExponentSpelling
      (Text.ofChars ['e', if leading < 0 then '-' else '+'] ++ Digits.zeroFill 2 (Text.ofNat leading.natAbs))
      (decide (leading < 0)) (Digits.zeroFill 2 (Text.ofNat leading.natAbs)) := by
  have hsign : (if leading < 0 then '-' else '+') = if leading ≥ 0 then '+' else '-' := by
    split <;> split <;> first | rfl | omega
  rw [hsign]
  exact NumberParts.exponentSpelling_power (.inl rfl) (Digits.digits_zeroFill (Digits.digits_textOfNat _)) leading

/-- Significant digits and the place of the first of them are what the text of a positive number spells. -/
theorem spelledBy_magnitude {x : Binary64} (negative : Bool) (hds : Significant x.shortest.1) :
    SpelledBy (Numeral.signText negative ++ x.magnitudeText)
      ⟨negative, x.shortest.1, x.shortest.2 + 1⟩ := by
  simp only [magnitudeText]
  generalize x.shortest = s at *
  obtain ⟨ds, leading⟩ := s
  simp only at hds ⊢
  have hpos : 0 < ds.length := List.length_pos_iff.mpr hds.digits.1
  split
  · split
    · rename_i hneg
      have hspelled := @NumberParts.spelledBy_fraction negative ds (leading + 1) hds (by omega)
      rw [show (-(leading + 1)).toNat = (-leading - 1).toNat by omega] at hspelled
      exact hspelled
    · rename_i hneg
      have hplaces : ((leading.toNat + 1 : Nat) : Int) = leading + 1 := by omega
      rcases Nat.lt_or_ge (leading.toNat + 1) ds.length with hlt | hge
      · -- The point falls among the digits.
        have hspelled := @NumberParts.spelledBy_mantissa negative ds [] [] false (leading.toNat + 1) hds
          (Nat.succ_pos _) hlt .absent
        have hpart : (ds.drop (leading.toNat + 1)).isEmpty = false := by
          simpa using hlt
        have hfill : leading.toNat + 1 - ds.length = 0 := Nat.sub_eq_zero_of_le hlt.le
        rw [List.append_nil] at hspelled
        rw [hpart, hfill, List.replicate_zero, List.append_nil, ← hplaces]
        exact hspelled
      · have hspelled := spelledBy_whole negative hds (leading.toNat + 1 - ds.length)
        rw [Nat.add_sub_cancel' hge, hplaces] at hspelled
        rw [List.take_of_length_le hge, List.drop_of_length_le hge]
        exact hspelled
  · have hexponent := exponentSpelling_leading leading
    have hvalue : Digits.value (Digits.zeroFill 2 (Text.ofNat leading.natAbs)) = leading.natAbs := by
      rw [Digits.value_zeroFill, Digits.value_textOfNat]
    rw [List.append_assoc]
    split
    · rename_i hlength
      have hspelled := @NumberParts.spelledBy_mantissa negative ds _ _ _ 1 hds Nat.one_pos hlength hexponent
      rw [NumberParts.shift_power _ _ _ hvalue, Int.add_comm] at hspelled
      exact hspelled
    · rename_i hlength
      have hspelled := @NumberParts.spelledBy_digits negative ds _ _ _ hds hexponent
      rw [NumberParts.shift_power _ _ _ hvalue, show (ds.length : Int) + leading = leading + 1 by omega] at hspelled
      exact hspelled

/-- The text of a finite number is number text. -/
theorem number_toText {x : Binary64} (h : x.isFinite = true) : Grammar.Number x.toText := by
  have hsign : ∀ t : Text, (if x.negative then CodePoint.ofChar '-' :: t else t) = Numeral.signText x.negative ++ t := by
    intro t
    cases x.negative <;> rfl
  have hzero : ∀ negative, SpelledBy (Numeral.signText negative ++ Text.ofChars ['0', '.', '0']) .zero := by
    intro negative
    refine ⟨⟨negative, zeros 1, zeros 1, false, []⟩, ⟨.zero, _, [], .present (zeros 1) ?_, .absent, ?_⟩, ?_⟩
    · exact ⟨by decide, NumberParts.isDigit_of_mem_zeros⟩
    · cases negative <;> rfl
    · cases negative <;> decide
  suffices hspelled : ∃ p, SpelledBy x.toText p by
    obtain ⟨p, n, hn, -⟩ := hspelled
    exact isNumeral_iff.mp (by rw [isNumeral, Numeral.ofText?_of_spelling hn]; rfl)
  have hnan : x.isNaN = false := by
    rw [isNaN, h]
    rfl
  simp only [toText, hnan, h, Bool.not_true, Bool.false_eq_true, ↓reduceIte, hsign]
  split
  · exact ⟨_, hzero _⟩
  · rename_i hne
    rcases significant_shortest hne with hnone | hds
    · have hmagnitude : x.magnitudeText = Text.ofChars ['0', '.', '0'] := by
        simp only [magnitudeText, hnone]
        decide
      rw [hmagnitude]
      exact ⟨_, hzero _⟩
    · exact ⟨_, spelledBy_magnitude _ hds⟩

end CanonJson.Binary64
