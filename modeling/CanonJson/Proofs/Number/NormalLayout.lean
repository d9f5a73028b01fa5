import CanonJson.Proofs.Number.Rational
/-!
# Normalized number text

Normalizing picks one text for each number. Which text is said here in terms of the parts, without the
program: the digits alone for integers of up to 21 places, the digits with a point among them or behind a few
zeros, and else one digit before the point and a power of ten (`NormalLayout`). The text that normalizing gives
is laid out so, denotes the number that the text before it denotes, and is the same for two number texts exactly
if they denote the same number.
-/

namespace CanonJson

open Grammar (Digits IntegerPart)
open NumberParts (zeros)
open Numeral (signText)

/-- The parts of a number and its normalized text. -/
inductive NormalLayout : NumberParts → Text → Prop where
  | zero : NormalLayout .zero (Text.ofChars ['0'])
  /-- Digits and zeros up to the point, at most 21 places. -/
  | integer (negative : Bool) (ds : Text) (k : Nat) (hds : ds ≠ []) (short : ds.length + k ≤ 21) :
      NormalLayout ⟨negative, ds, ds.length + k⟩ (signText negative ++ ds ++ zeros k)
  /-- The point among the digits, at most 21 of them before it. -/
  | among (negative : Bool) (before behind : Text) (hbefore : before ≠ []) (hbehind : behind ≠ [])
      (short : before.length ≤ 21) :
      NormalLayout ⟨negative, before ++ behind, before.length⟩
        (signText negative ++ before ++ CodePoint.ofChar '.' :: behind)
  /-- The point in front of all digits, with fewer than six zeros behind it. -/
  | front (negative : Bool) (ds : Text) (k : Nat) (hds : ds ≠ []) (few : k < 6) :
      NormalLayout ⟨negative, ds, -k⟩ (signText negative ++ Text.ofChars ['0', '.'] ++ zeros k ++ ds)
  /-- One digit before the point, no point behind a single digit, and a power of ten without zeros in front. -/
  | scientific (negative : Bool) (d : CodePoint) (ds : Text) (point : Int) (power : Text)
      (far : 21 < point ∨ point ≤ -6) (hpower : IntegerPart power)
      (value : Digits.value power = (point - 1).natAbs) :
      NormalLayout ⟨negative, d :: ds, point⟩
        (signText negative ++ d :: (if ds = [] then [] else CodePoint.ofChar '.' :: ds)
          ++ Text.ofChars ['e', if 0 < point then '+' else '-'] ++ power)

theorem integerPart_ofNat (n : Nat) : IntegerPart (Digits.ofNat n) := by
  rcases Nat.eq_zero_or_pos n with rfl | hn
  · rw [Digits.ofNat_zero]
    exact .zero
  · exact NumberParts.integerPart_of_halts (Digits.digits_ofNat n) (Digits.halts_ofNat hn)

theorem normalLayout_magnitudeText (negative : Bool) {ds : Text} (hds : ds ≠ []) (point : Int) :
    NormalLayout ⟨negative, ds, point⟩ (signText negative ++ NumberParts.magnitudeText ds point) := by
  have hpos : 0 < ds.length := List.length_pos_iff.mpr hds
  simp only [NumberParts.magnitudeText]
  split
  · rename_i h
    have hpoint : point = ds.length + ((point - ds.length).toNat : Int) := by omega
    have hlayout := NormalLayout.integer negative ds (point - ds.length).toNat hds (by omega)
    rwa [← hpoint, List.append_assoc] at hlayout
  · rename_i hlong
    split
    · rename_i h
      have hlt : point.toNat < ds.length := by omega
      have hbefore : (ds.take point.toNat).length = point.toNat := by
        rw [List.length_take]
        omega
      have hlayout := NormalLayout.among negative (ds.take point.toNat) (ds.drop point.toNat)
        (List.ne_nil_of_length_pos (by omega)) (by rw [ne_eq, List.drop_eq_nil_iff]; omega) (by omega)
      rwa [List.take_append_drop, hbefore, Int.toNat_of_nonneg (by omega), List.append_assoc] at hlayout
    · split
      · rename_i h
        have hpoint : point = -((-point).toNat : Int) := by omega
        have hlayout := NormalLayout.front negative ds (-point).toNat hds (by omega)
        rw [← hpoint] at hlayout
        simpa only [List.append_assoc] using hlayout
      · rename_i hfixed hsmall
        obtain ⟨d, ds, rfl⟩ := List.exists_cons_of_ne_nil hds
        have hlayout := NormalLayout.scientific negative d ds point (Digits.ofNat (point - 1).natAbs) (by omega)
          (integerPart_ofNat _) (Digits.value_ofNat _)
        have hsign : (0 < point) = (point - 1 ≥ 0) := by
          rw [eq_iff_iff]
          omega
        have hmantissa : d :: (if ds = [] then [] else CodePoint.ofChar '.' :: ds)
            = if (d :: ds).length > 1 then (d :: ds).take 1 ++ CodePoint.ofChar '.' :: (d :: ds).drop 1
              else d :: ds := by
          cases ds <;> simp
        simp only [hsign, hmantissa] at hlayout
        simpa only [List.append_assoc] using hlayout

theorem normalLayout_toText {p : NumberParts} (hp : p.Reduced) : NormalLayout p p.toText := by
  rcases hp with rfl | hds
  · exact .zero
  · rw [NumberParts.toText_eq hds.digits.1]
    exact normalLayout_magnitudeText p.negative hds.digits.1 p.point

theorem normalizeNumber?_of_parts {t : Text} {p : NumberParts} (h : NumberParts.ofText? t = some p) :
    normalizeNumber? t = some p.toText := by
  rw [normalizeNumber?, h, Option.map_some]

theorem number_toText {p : NumberParts} (hp : p.Reduced) : Grammar.Number p.toText := by
  obtain ⟨n, hn, -⟩ := Option.map_eq_some_iff.mp (NumberParts.ofText?_toText hp)
  exact isNumeral_iff.mp (Option.isSome_iff_exists.mpr ⟨n, hn⟩)

/-- Number texts have the same normalized text exactly if they denote the same number. -/
theorem normalizeNumber?_eq_iff_denotes {t u : Text} (ht : Grammar.Number t) (hu : Grammar.Number u) :
    normalizeNumber? u = normalizeNumber? t ↔ ∃ x, NumberDenotes u x ∧ NumberDenotes t x := by
  obtain ⟨p, hp, hreduced⟩ := NumberParts.exists_reduced_of_number ht
  obtain ⟨q, hq, hreduced'⟩ := NumberParts.exists_reduced_of_number hu
  rw [← NumberParts.ofText?_eq_iff_denotes ht hu, normalizeNumber?_of_parts hp, normalizeNumber?_of_parts hq, hp, hq]
  constructor
  · intro h
    rw [← NumberParts.ofText?_toText hreduced, ← NumberParts.ofText?_toText hreduced', Option.some.inj h]
  · intro h
    rw [Option.some.inj h]

/-- Normalizing is exact: the result is a number text with the same parts, which denotes the same number and is
its own result, laid out by the place of the point; and two number texts have the same result exactly if they denote
the same number. -/
theorem normalizeNumber?_exact (t : Text) (ht : Grammar.Number t) :
    (∃ s p, normalizeNumber? t = some s ∧ Grammar.Number s
      ∧ NumberParts.ofText? t = some p ∧ NumberParts.ofText? s = some p
      ∧ (∃ x, NumberDenotes t x ∧ NumberDenotes s x)
      ∧ normalizeNumber? s = some s ∧ NormalLayout p s)
    ∧ ∀ u, Grammar.Number u →
      (normalizeNumber? u = normalizeNumber? t ↔ ∃ x, NumberDenotes u x ∧ NumberDenotes t x) := by
  obtain ⟨p, hp, hreduced⟩ := NumberParts.exists_reduced_of_number ht
  have hback := NumberParts.ofText?_toText hreduced
  constructor
  · refine ⟨p.toText, p, normalizeNumber?_of_parts hp, number_toText hreduced, hp, hback, ?_,
      normalizeNumber?_of_parts hback, normalLayout_toText hreduced⟩
    exact ⟨p.toRat, NumberParts.numberDenotes_toRat hp, NumberParts.numberDenotes_toRat hback⟩
  · intro u hu
    exact normalizeNumber?_eq_iff_denotes ht hu

/-- Two spellings of a number that takes a power of ten. -/
theorem normalizeNumber?_exact_scientific :
    let t : Text := Text.ofChars ['1', '2', '.', '5', '0', 'e', '2', '2']
    let u : Text := Text.ofChars ['1', '2', '5', 'E', '+', '0', '2', '1']
    Grammar.Number t ∧ Grammar.Number u ∧ ∃ s, normalizeNumber? t = some s ∧ normalizeNumber? u = some s
      ∧ NormalLayout ⟨false, Text.ofChars ['1', '2', '5'], 24⟩ s := by
  intro t u
  have ht : Grammar.Number t := isNumeral_iff.mp (by decide)
  have hu : Grammar.Number u := isNumeral_iff.mp (by decide)
  have hparts : NumberParts.ofText? t = some ⟨false, Text.ofChars ['1', '2', '5'], 24⟩ := by decide
  obtain ⟨⟨s, p, hs, -, hp, -, -, -, hlayout⟩, hsame⟩ := normalizeNumber?_exact t ht
  obtain rfl := Option.some.inj (hp.symm.trans hparts)
  refine ⟨ht, hu, s, hs, ?_, hlayout⟩
  rw [(hsame u hu).mpr, hs]
  exact (NumberParts.ofText?_eq_iff_denotes ht hu).mp (by decide)

end CanonJson
