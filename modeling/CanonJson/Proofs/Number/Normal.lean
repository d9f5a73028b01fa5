import CanonJson.Number.Normal
import CanonJson.Proofs.Number.Digits
import CanonJson.Proofs.Number.Spelling
/-!
# Normal spellings are read back

The parts of a number are reduced: digits without a zero at either end, and nothing but zero without
digits. Reduced parts survive being spelled and read (`ofText?_toText`), whichever of the four layouts
the spelling takes. So the normalized spelling of a number is a number of the same parts, it is its own
normalized spelling, and two numbers share it exactly if they share their parts.
-/

namespace CanonJson

open Grammar (Digits IntegerPart)

namespace NumberParts

/-- Digits without a zero at either end. -/
structure Significant (ds : Text) : Prop where
  digits : Digits ds
  front : ds.Halts (·.is '0')
  back : Text.Halts (·.is '0') ds.reverse

/-- The parts of zero, or significant digits with a sign and a point. -/
def Reduced (p : NumberParts) : Prop :=
  p = zero ∨ Significant p.digits

/-! ### Stripping zeros -/

theorem is_zero_of_mem_zeros {n : Nat} : ∀ c ∈ zeros n, c.is '0' = true := by
  intro c hc
  rw [List.eq_of_mem_replicate hc]
  rfl

theorem isDigit_of_mem_zeros {n : Nat} : ∀ c ∈ zeros n, c.isDigit = true := by
  intro c hc
  rw [List.eq_of_mem_replicate hc]
  decide

theorem stripLeft_zeros {n : Nat} {t : Text} (ht : t.Halts (·.is '0')) :
    stripLeft (zeros n ++ t) = t :=
  Text.dropWhile_append_of_halts is_zero_of_mem_zeros ht

theorem stripRight_zeros {n : Nat} {t : Text} (ht : Text.Halts (·.is '0') t.reverse) :
    stripRight (t ++ zeros n) = t := by
  have hzeros : (zeros n).reverse = zeros n := List.reverse_replicate
  rw [stripRight, List.reverse_append, hzeros,
    Text.dropWhile_append_of_halts is_zero_of_mem_zeros ht,
    List.reverse_reverse]

theorem stripRight_isPrefix (t : Text) : stripRight t <+: t := by
  rw [stripRight, ← List.reverse_suffix, List.reverse_reverse]
  exact List.dropWhile_suffix _

theorem halts_of_isPrefix {q : CodePoint → Bool} {s t : Text} (h : s <+: t) (ht : t.Halts q) :
    s.Halts q := by
  obtain ⟨rest, rfl⟩ := h
  cases s with
  | nil => exact Text.halts_nil
  | cons c s => simpa using ht

/-! ### The parts of a numeral -/

theorem reduced_ofNumeral {n : Numeral} (hint : ∀ c ∈ n.integer, c.isDigit = true)
    (hfrac : ∀ c ∈ n.fraction, c.isDigit = true) : (ofNumeral n).Reduced := by
  unfold ofNumeral
  simp only
  split
  · exact .inl rfl
  · rename_i hne
    have hpre := stripRight_isPrefix (stripLeft (n.integer ++ n.fraction))
    have hsuff : stripLeft (n.integer ++ n.fraction) <:+ n.integer ++ n.fraction := List.dropWhile_suffix _
    refine .inr ⟨⟨by simpa using hne, ?_⟩, ?_, ?_⟩
    · intro c hc
      rcases List.mem_append.mp (hsuff.subset (hpre.subset hc)) with hc | hc
      · exact hint c hc
      · exact hfrac c hc
    · exact halts_of_isPrefix hpre (Text.halts_dropWhile _ _)
    · rw [stripRight, List.reverse_reverse]
      exact Text.halts_dropWhile _ _

/-- The parts of a numeral whose digits are known up to zeros on either side. -/
theorem ofNumeral_eq {n : Numeral} {a b : Nat} {ds : Text} (hds : Significant ds)
    (h : n.integer ++ n.fraction = zeros a ++ ds ++ zeros b) :
    ofNumeral n = ⟨n.negative, ds, n.integer.length + n.shift - a⟩ := by
  have hleft : stripLeft (zeros a ++ ds ++ zeros b) = ds ++ zeros b := by
    rw [List.append_assoc, stripLeft_zeros (hds.front.append fun hnil => absurd hnil hds.digits.1)]
  have hlength : (zeros a ++ ds ++ zeros b).length - (ds ++ zeros b).length = a := by
    simp only [List.length_append, zeros, List.length_replicate]
    omega
  unfold ofNumeral
  simp only [h, hleft, stripRight_zeros hds.back, hlength, List.isEmpty_iff, hds.digits.1,
    ↓reduceIte]

theorem isDigit_of_mem_fraction {f ds : Text} (h : Numeral.FractionSpelling f ds) :
    ∀ c ∈ ds, c.isDigit = true := by
  cases h with
  | absent => simp
  | present ds digits => exact digits.2

theorem reduced_of_ofText? {t : Text} {p : NumberParts} (h : ofText? t = some p) : p.Reduced := by
  obtain ⟨n, hn, rfl⟩ := Option.map_eq_some_iff.mp h
  obtain ⟨hint, f, e, hf, -, -⟩ := Numeral.spelling_of_ofText? hn
  exact reduced_ofNumeral (Numeral.integerPart_iff.mp hint).1 (isDigit_of_mem_fraction hf)

/-! ### The four layouts -/

theorem integerPart_of_halts {ds : Text} (hds : Digits ds) (hfront : ds.Halts (·.is '0')) :
    IntegerPart ds := by
  cases ds with
  | nil => exact absurd rfl hds.1
  | cons d ds =>
    rw [Text.halts_cons, CodePoint.is_eq_false_iff] at hfront
    exact .positive d ds (hds.2 d (by simp)) hfront fun c hc => hds.2 c (by simp [hc])

theorem integerPart_textOfNat (n : Nat) : IntegerPart (Text.ofNat n) := by
  rcases Nat.eq_zero_or_pos n with rfl | hn
  · exact .zero
  · exact integerPart_of_halts (Digits.digits_textOfNat n) (Digits.halts_textOfNat hn)

/-- Some numeral is spelled by the text and has the parts. -/
def SpelledBy (t : Text) (p : NumberParts) : Prop :=
  ∃ n, Numeral.Spelling t n ∧ ofNumeral n = p

section Layouts

variable {negative : Bool} {ds : Text} {point : Int}

theorem spelledBy_integer (hds : Significant ds) (hpoint : (ds.length : Int) ≤ point) :
    SpelledBy (Numeral.signText negative ++ (ds ++ zeros (point - ds.length).toNat)) ⟨negative, ds, point⟩ := by
  refine ⟨⟨negative, ds ++ zeros (point - ds.length).toNat, [], false, []⟩, ⟨?_, ?_⟩, ?_⟩
  · refine integerPart_of_halts ⟨by simp [hds.digits.1], ?_⟩
      (hds.front.append fun hnil => absurd hnil hds.digits.1)
    intro c hc
    rcases List.mem_append.mp hc with hc | hc
    · exact hds.digits.2 c hc
    · exact isDigit_of_mem_zeros c hc
  · exact ⟨[], [], .absent, .absent, by simp⟩
  · rw [@ofNumeral_eq _ 0 (point - ds.length).toNat ds hds (by simp [zeros])]
    have hlength : ((ds ++ zeros (point - ds.length).toNat).length : Int) = point := by
      rw [List.length_append, zeros, List.length_replicate]
      omega
    simp only [hlength, Numeral.shift, Digits.value, List.foldl_nil, Bool.false_eq_true, ↓reduceIte,
      Int.natCast_zero, Int.add_zero, Int.sub_zero]

theorem spelledBy_mantissa {e ds' : Text} {negative' : Bool} {k : Nat} (hds : Significant ds)
    (hk : 0 < k) (hlt : k < ds.length) (he : Numeral.ExponentSpelling e negative' ds') :
    SpelledBy (Numeral.signText negative ++ (ds.take k ++ CodePoint.ofChar '.' :: ds.drop k ++ e))
      ⟨negative, ds, k + Numeral.shift ⟨negative, ds.take k, ds.drop k, negative', ds'⟩⟩ := by
  have htake : ds.take k <+: ds := List.take_prefix k ds
  refine ⟨⟨negative, ds.take k, ds.drop k, negative', ds'⟩, ⟨?_, ?_⟩, ?_⟩
  · refine integerPart_of_halts ⟨?_, fun c hc => hds.digits.2 c (List.mem_of_mem_take hc)⟩
      (halts_of_isPrefix htake hds.front)
    simp only [ne_eq, List.take_eq_nil_iff, hds.digits.1, or_false]
    omega
  · refine ⟨_, e, .present (ds.drop k) ⟨?_, fun c hc => hds.digits.2 c (List.mem_of_mem_drop hc)⟩, he, ?_⟩
    · simp only [ne_eq, List.drop_eq_nil_iff]
      omega
    · simp only [List.append_assoc, List.cons_append]
  · rw [@ofNumeral_eq _ 0 0 ds hds (by simp [zeros])]
    simp only [List.length_take, Nat.min_eq_left (Nat.le_of_lt hlt), Int.natCast_zero, Int.sub_zero]

theorem spelledBy_digits {e ds' : Text} {negative' : Bool} (hds : Significant ds)
    (he : Numeral.ExponentSpelling e negative' ds') :
    SpelledBy (Numeral.signText negative ++ (ds ++ e))
      ⟨negative, ds, ds.length + Numeral.shift ⟨negative, ds, [], negative', ds'⟩⟩ := by
  refine ⟨⟨negative, ds, [], negative', ds'⟩, ⟨integerPart_of_halts hds.digits hds.front, ?_⟩, ?_⟩
  · exact ⟨[], e, .absent, he, by simp⟩
  · rw [@ofNumeral_eq _ 0 0 ds hds (by simp [zeros])]
    simp only [Int.natCast_zero, Int.sub_zero]

theorem spelledBy_fraction (hds : Significant ds) (hpoint : point ≤ 0) :
    SpelledBy (Numeral.signText negative ++ (Text.ofChars ['0', '.'] ++ zeros (-point).toNat ++ ds))
      ⟨negative, ds, point⟩ := by
  refine ⟨⟨negative, [CodePoint.ofChar '0'], zeros (-point).toNat ++ ds, false, []⟩, ⟨.zero, ?_⟩, ?_⟩
  · refine ⟨_, [], .present (zeros (-point).toNat ++ ds) ⟨by simp [hds.digits.1], ?_⟩, .absent,
      by simp [Text.ofChars]⟩
    intro c hc
    rcases List.mem_append.mp hc with hc | hc
    · exact isDigit_of_mem_zeros c hc
    · exact hds.digits.2 c hc
  · rw [@ofNumeral_eq _ ((-point).toNat + 1) 0 ds hds (by simp [zeros, List.replicate_succ])]
    simp only [Numeral.shift, Digits.value, List.length_singleton, List.foldl_nil,
      Bool.false_eq_true, ↓reduceIte,
      mk.injEq, true_and]
    omega

theorem exponentSpelling_power {mark : Char} (hmark : mark = 'e' ∨ mark = 'E') {ds : Text} (hds : Digits ds)
    (power : Int) :
    Numeral.ExponentSpelling (Text.ofChars [mark, if power ≥ 0 then '+' else '-'] ++ ds)
      (decide (power < 0)) ds := by
  by_cases hpower : power ≥ 0
  · have hneg : decide (power < 0) = (['+'] == ['-']) := by simpa using hpower
    rw [if_pos hpower, hneg]
    exact .present mark ['+'] _ hmark (by simp) hds
  · have hneg : decide (power < 0) = (['-'] == ['-']) := by simpa using hpower
    rw [if_neg hpower, hneg]
    exact .present mark ['-'] _ hmark (by simp) hds

theorem shift_power (negative : Bool) (i f : Text) {ds : Text} {power : Int}
    (hds : Digits.value ds = power.natAbs) :
    Numeral.shift ⟨negative, i, f, decide (power < 0), ds⟩ = power := by
  simp only [Numeral.shift, hds, decide_eq_true_eq]
  split <;> omega

end Layouts

theorem spelledBy_magnitudeText {negative : Bool} {ds : Text} {point : Int} (hds : Significant ds) :
    SpelledBy (Numeral.signText negative ++ magnitudeText ds point) ⟨negative, ds, point⟩ := by
  have hpos : 0 < ds.length := List.length_pos_iff.mpr hds.digits.1
  simp only [magnitudeText]
  split
  · rename_i h
    exact spelledBy_integer hds h.1
  · split
    · rename_i hlong h
      -- The point falls among the digits.
      have hspelled := @spelledBy_mantissa negative ds [] [] false point.toNat hds (by omega) (by omega) .absent
      have hpoint : (point.toNat : Int) = point := by omega
      simpa [Numeral.shift, Digits.value, hpoint] using hspelled
    · split
      · rename_i h
        exact spelledBy_fraction hds h.2
      · have hexponent := @exponentSpelling_power 'e' (.inl rfl) _ (Digits.digits_ofNat (point - 1).natAbs) (point - 1)
        rw [List.append_assoc]
        split
        · rename_i hlength
          have hspelled := @spelledBy_mantissa negative ds _ _ _ 1 hds (by omega) hlength hexponent
          rw [shift_power _ _ _ (Digits.value_ofNat _), show ((1 : Nat) : Int) + (point - 1) = point by omega] at hspelled
          exact hspelled
        · have hspelled := @spelledBy_digits negative ds _ _ _ hds hexponent
          rw [shift_power _ _ _ (Digits.value_ofNat _), show (ds.length : Int) + (point - 1) = point by omega] at hspelled
          exact hspelled

theorem toText_eq {p : NumberParts} (h : p.digits ≠ []) :
    p.toText = Numeral.signText p.negative ++ magnitudeText p.digits p.point := by
  rw [toText, if_neg (by simpa using h)]
  cases p.negative <;> rfl

/-- Reduced parts are read back from their normalized spelling. -/
theorem ofText?_toText {p : NumberParts} (hp : p.Reduced) : ofText? p.toText = some p := by
  rcases hp with rfl | hds
  · decide
  · obtain ⟨n, hn, hparts⟩ := @spelledBy_magnitudeText p.negative p.digits p.point hds
    rw [ofText?, toText_eq hds.digits.1, Numeral.ofText?_of_spelling hn, Option.map_some, hparts]

end NumberParts

/-! ### Normalized text -/

/-- The normalized spelling of number text; any other text is kept. -/
def normalNumber (t : Text) : Text :=
  (normalizeNumber? t).getD t

theorem exists_reduced_of_isNumeral {t : Text} (h : isNumeral t = true) :
    ∃ p, NumberParts.ofText? t = some p ∧ p.Reduced := by
  obtain ⟨n, hn⟩ := Option.isSome_iff_exists.mp h
  have hp : NumberParts.ofText? t = some (NumberParts.ofNumeral n) := by
    rw [NumberParts.ofText?, hn, Option.map_some]
  exact ⟨_, hp, NumberParts.reduced_of_ofText? hp⟩

theorem normalizeNumber?_eq_some {t : Text} (h : isNumeral t = true) :
    normalizeNumber? t = some (normalNumber t) := by
  obtain ⟨p, hp, -⟩ := exists_reduced_of_isNumeral h
  rw [normalNumber, normalizeNumber?, hp, Option.map_some, Option.getD_some]

/-- Normalizing keeps the parts of a number. -/
theorem ofText?_normalNumber {t : Text} (h : isNumeral t = true) :
    NumberParts.ofText? (normalNumber t) = NumberParts.ofText? t := by
  obtain ⟨p, hp, hreduced⟩ := exists_reduced_of_isNumeral h
  rw [normalNumber, normalizeNumber?, hp, Option.map_some, Option.getD_some,
    NumberParts.ofText?_toText hreduced]

theorem isNumeral_normalNumber {t : Text} (h : isNumeral t = true) :
    isNumeral (normalNumber t) = true := by
  obtain ⟨p, hp, -⟩ := exists_reduced_of_isNumeral h
  rw [← ofText?_normalNumber h] at hp
  obtain ⟨n, hn, -⟩ := Option.map_eq_some_iff.mp hp
  exact Option.isSome_iff_exists.mpr ⟨n, hn⟩

/-- Numbers have the same normalized spelling exactly if they have the same parts. -/
theorem normalNumber_eq_iff {a b : Text} (ha : isNumeral a = true) (hb : isNumeral b = true) :
    normalNumber a = normalNumber b ↔ NumberParts.ofText? a = NumberParts.ofText? b := by
  constructor
  · intro h
    rw [← ofText?_normalNumber ha, ← ofText?_normalNumber hb, h]
  · intro h
    have hnormal := normalizeNumber?_eq_some ha
    rw [normalizeNumber?, h, ← normalizeNumber?, normalizeNumber?_eq_some hb] at hnormal
    exact (Option.some.inj hnormal).symm

theorem normalNumber_normalNumber {t : Text} (h : isNumeral t = true) :
    normalNumber (normalNumber t) = normalNumber t :=
  (normalNumber_eq_iff (isNumeral_normalNumber h) h).mpr (ofText?_normalNumber h)

end CanonJson
