import CanonJson.Proofs.Number.Normal
import CanonJson.Proofs.Order.Lex
import Mathlib.Algebra.Order.Field.Power
import Mathlib.Algebra.Order.Field.Rat
import Mathlib.Tactic.FieldSimp
import Mathlib.Tactic.Linarith
import Mathlib.Tactic.Positivity
import Mathlib.Tactic.Ring
/-!
# The rational number that a number text denotes

A numeral denotes a rational number: its sign, its digits with the point among them, its power of ten. The
parts of a number stand for the same rational (`toRat_ofNumeral`), however often the point was moved to get
rid of zeros. Significant digits behind the point denote at least a tenth and less than one, so a greater
point outweighs all digits, and digits behind the same point compare from left to right
(`Significant.magnitude_le_iff`). Hence reduced parts are the only ones for their number
(`toRat_injective`), and the parts of two number texts are the same exactly if the texts denote the same
number.
-/

namespace CanonJson

open Grammar (Digits IntegerPart)

/-! ### Digits behind the point -/

namespace Digits

open NumberParts (zeros)

/-- The number that digits denote behind the point. -/
def fraction (t : Text) : ℚ :=
  value t / 10 ^ t.length

theorem fraction_append (s t : Text) : fraction (s ++ t) = fraction s + fraction t / 10 ^ s.length := by
  have hvalue : (value (s ++ t) : ℚ) = 10 ^ t.length * value s + value t := by
    rw [value_append]
    push_cast [Nat.pow_eq]
    rfl
  rw [fraction, fraction, fraction, hvalue, List.length_append, pow_add]
  field_simp

theorem value_eq_fraction_mul (t : Text) : (value t : ℚ) = fraction t * 10 ^ t.length := by
  rw [fraction]
  field_simp

theorem fraction_cons (c : CodePoint) (t : Text) :
    fraction (c :: t) = (c.digitValue + fraction t) / 10 := by
  have hone : fraction [c] = c.digitValue / 10 := by simp [fraction, value]
  rw [← List.singleton_append, fraction_append, hone, List.length_singleton, pow_one, add_div]

theorem fraction_zeros (n : Nat) : fraction (zeros n) = 0 := by
  rw [fraction, zeros, value_replicate_zero, Nat.cast_zero, zero_div]

@[simp] theorem fraction_nil : fraction [] = 0 :=
  fraction_zeros 0

theorem fraction_nonneg (t : Text) : 0 ≤ fraction t := by
  unfold fraction
  positivity

theorem fraction_lt_one {t : Text} (h : ∀ c ∈ t, c.isDigit = true) : fraction t < 1 := by
  have hlt : (value t : ℚ) < 10 ^ t.length := by exact_mod_cast value_lt h
  rw [fraction, div_lt_one (by positivity)]
  exact hlt

theorem digitValue_pos {c : CodePoint} (h : c.isDigit = true) (hne : c.is '0' = false) : 0 < c.digitValue := by
  rw [isDigit_iff] at h
  have hval : c.val ≠ 0x30 := by simpa [CodePoint.is] using hne
  unfold CodePoint.digitValue
  omega

theorem halts_reverse_of_cons {p : CodePoint → Bool} {c : CodePoint} {t : Text}
    (h : Text.Halts p (c :: t).reverse) : Text.Halts p t.reverse :=
  NumberParts.halts_of_isPrefix (by rw [List.reverse_cons]; exact List.prefix_append _ _) h

/-- Digits that do not end with a zero do not denote zero. -/
theorem fraction_pos {t : Text} (h : Digits t) (hback : Text.Halts (·.is '0') t.reverse) : 0 < fraction t := by
  induction t with
  | nil => exact absurd rfl h.1
  | cons c t ih =>
    obtain ⟨hc, ht⟩ := List.forall_mem_cons.mp h.2
    rw [fraction_cons]
    by_cases hnil : t = []
    · subst hnil
      have hpos : (0 : ℚ) < c.digitValue := by exact_mod_cast digitValue_pos hc (by simpa using hback)
      have hnonneg := fraction_nonneg []
      positivity
    · have hpos := ih ⟨hnil, ht⟩ (halts_reverse_of_cons hback)
      positivity

theorem val_eq_digitValue {c : CodePoint} (h : c.isDigit = true) : c.val = 0x30 + c.digitValue := by
  rw [isDigit_iff] at h
  unfold CodePoint.digitValue
  omega

/-- Digits behind the point compare from left to right. The first digits must not end with a zero: the
second may go on with zeros and be no greater. -/
theorem fraction_le_iff {s t : Text} (hs : ∀ c ∈ s, c.isDigit = true) (ht : ∀ c ∈ t, c.isDigit = true)
    (hback : Text.Halts (·.is '0') s.reverse) :
    fraction s ≤ fraction t ↔ lexLe CodePoint.val s t = true := by
  induction s generalizing t with
  | nil =>
    simp [fraction_nonneg, lexLe]
  | cons c s ih =>
    cases t with
    | nil =>
      have hpos := fraction_pos ⟨List.cons_ne_nil c s, hs⟩ hback
      simp [hpos, lexLe]
    | cons d t =>
      obtain ⟨hc, hs⟩ := List.forall_mem_cons.mp hs
      obtain ⟨hd, ht⟩ := List.forall_mem_cons.mp ht
      have hrest := ih hs ht (halts_reverse_of_cons hback)
      have hsLt := fraction_lt_one hs
      have htLt := fraction_lt_one ht
      have hsNonneg := fraction_nonneg s
      have htNonneg := fraction_nonneg t
      rw [lexLe_cons_cons, val_eq_digitValue hc, val_eq_digitValue hd, ← hrest, fraction_cons, fraction_cons,
        div_le_div_iff_of_pos_right (by norm_num)]
      -- What follows the first digit is worth less than one step of it.
      rcases Nat.lt_trichotomy c.digitValue d.digitValue with hlt | heq | hgt
      · have hstep : (c.digitValue : ℚ) + 1 ≤ d.digitValue := by exact_mod_cast hlt
        exact iff_of_true (by linarith) (.inl (by omega))
      · simp [heq]
      · have hstep : (d.digitValue : ℚ) + 1 ≤ c.digitValue := by exact_mod_cast hgt
        exact iff_of_false (by linarith) (by omega)

end Digits

/-! ### Numerals and their parts -/

/-- The sign of a number as a factor. -/
def signFactor (negative : Bool) : ℚ :=
  if negative then -1 else 1

/-- The number that a numeral denotes: its digits before and behind the point, times a power of ten. -/
def Numeral.toRat (n : Numeral) : ℚ :=
  signFactor n.negative * (Digits.value n.integer + Digits.fraction n.fraction) * 10 ^ n.shift

/-- The number that a numeral denotes, all its digits taken together. -/
theorem Numeral.toRat_eq (n : Numeral) :
    n.toRat = signFactor n.negative * Digits.value (n.integer ++ n.fraction)
      * 10 ^ (n.shift - n.fraction.length) := by
  have hten : (10 : ℚ) ≠ 0 := by norm_num
  have hvalue : (Digits.value (n.integer ++ n.fraction) : ℚ)
      = 10 ^ n.fraction.length * Digits.value n.integer + Digits.value n.fraction := by
    rw [Digits.value_append]
    push_cast [Nat.pow_eq]
    rfl
  rw [Numeral.toRat, Digits.fraction, hvalue, zpow_sub₀ hten, zpow_natCast]
  field_simp

/-- The text spells a numeral that denotes the number. -/
def NumberDenotes (t : Text) (x : ℚ) : Prop :=
  ∃ n, Numeral.Spelling t n ∧ n.toRat = x

namespace NumberParts

/-- The number that parts stand for: the sign times `0.digits` times ten to the power `point`. -/
def toRat (p : NumberParts) : ℚ :=
  signFactor p.negative * Digits.fraction p.digits * 10 ^ p.point

@[simp] theorem toRat_zero : toRat zero = 0 := by
  simp [toRat, zero]

theorem takeWhile_is_zero (t : Text) :
    t.takeWhile (·.is '0') = zeros (t.takeWhile (·.is '0')).length := by
  refine List.eq_replicate_of_mem fun c hc => ?_
  exact CodePoint.is_iff.mp (List.all_eq_true.mp List.all_takeWhile c hc)

theorem eq_zeros_append_stripLeft (t : Text) :
    t = zeros (t.length - (stripLeft t).length) ++ stripLeft t := by
  have hsplit : t.takeWhile (·.is '0') ++ stripLeft t = t := List.takeWhile_append_dropWhile
  have hlength : (t.takeWhile (·.is '0')).length = t.length - (stripLeft t).length := by
    have happend := congrArg List.length hsplit
    rw [List.length_append] at happend
    omega
  rw [← hlength, ← takeWhile_is_zero, hsplit]

theorem exists_eq_stripRight_append (t : Text) : ∃ k, t = stripRight t ++ zeros k := by
  have hsplit := eq_zeros_append_stripLeft t.reverse
  refine ⟨t.reverse.length - (stripLeft t.reverse).length, ?_⟩
  have hreverse := congrArg List.reverse hsplit
  rwa [List.reverse_reverse, List.reverse_append, zeros, List.reverse_replicate] at hreverse

/-- The parts of a numeral stand for the number that it denotes. -/
theorem toRat_ofNumeral (n : Numeral) : (ofNumeral n).toRat = n.toRat := by
  have hten : (10 : ℚ) ≠ 0 := by norm_num
  have hleft := congrArg Digits.fraction (eq_zeros_append_stripLeft (n.integer ++ n.fraction))
  obtain ⟨k, hk⟩ := exists_eq_stripRight_append (stripLeft (n.integer ++ n.fraction))
  have hright := congrArg Digits.fraction hk
  rw [Digits.fraction_append, Digits.fraction_append, Digits.fraction_zeros, zero_add, zeros,
    List.length_replicate] at hleft
  rw [Digits.fraction_append, Digits.fraction_zeros, zero_div, add_zero] at hright
  have hvalue : n.toRat = signFactor n.negative
      * (Digits.fraction n.integer + Digits.fraction n.fraction / 10 ^ n.integer.length)
      * 10 ^ n.integer.length * 10 ^ n.shift := by
    rw [Numeral.toRat, Digits.value_eq_fraction_mul]
    field_simp
  rw [hvalue, hleft, hright]
  unfold ofNumeral
  simp only
  split
  · rename_i hempty
    rw [List.isEmpty_iff.mp hempty, Digits.fraction_nil]
    simp
  · rw [toRat, zpow_sub₀ hten, zpow_add₀ hten, zpow_natCast, zpow_natCast]
    field_simp

/-! ### One representation -/

section Magnitude

variable {ds es : Text} {a b : ℤ}

theorem Significant.tenth_le (hds : Significant ds) : 1 / 10 ≤ Digits.fraction ds := by
  cases ds with
  | nil => exact absurd rfl hds.digits.1
  | cons c t =>
    have hone : (1 : ℚ) ≤ c.digitValue := by
      exact_mod_cast Digits.digitValue_pos (hds.digits.2 c (by simp)) (by simpa using hds.front)
    have hrest := Digits.fraction_nonneg t
    rw [Digits.fraction_cons, div_le_div_iff_of_pos_right (by norm_num)]
    linarith

theorem Significant.magnitude_pos (hds : Significant ds) (a : ℤ) : 0 < Digits.fraction ds * 10 ^ a := by
  have htenth := hds.tenth_le
  have hpos : 0 < Digits.fraction ds := by linarith
  positivity

theorem Significant.magnitude_lt (hds : Significant ds) (hes : Significant es) (hab : a < b) :
    Digits.fraction ds * 10 ^ a < Digits.fraction es * 10 ^ b := by
  have hten : (10 : ℚ) ≠ 0 := by norm_num
  calc Digits.fraction ds * 10 ^ a
      < 1 * 10 ^ a := by
        have hlt := Digits.fraction_lt_one hds.digits.2
        gcongr
    _ ≤ 1 * 10 ^ (b - 1) := by
        gcongr
        · norm_num
        · omega
    _ = 1 / 10 * 10 ^ b := by
        rw [zpow_sub_one₀ hten]
        ring
    _ ≤ Digits.fraction es * 10 ^ b := by
        have htenth := hes.tenth_le
        gcongr

/-- Magnitudes compare by the point, and with the same point by the digits from left to right. -/
theorem Significant.magnitude_le_iff (hds : Significant ds) (hes : Significant es) :
    Digits.fraction ds * 10 ^ a ≤ Digits.fraction es * 10 ^ b
      ↔ a < b ∨ a = b ∧ lexLe CodePoint.val ds es = true := by
  rcases Int.lt_trichotomy a b with hlt | rfl | hgt
  · simp [hlt, (hds.magnitude_lt hes hlt).le]
  · have hpos : (0 : ℚ) < 10 ^ a := by positivity
    rw [mul_le_mul_iff_left₀ hpos, Digits.fraction_le_iff hds.digits.2 hes.digits.2 hds.back]
    simp
  · exact iff_of_false (not_le.mpr (hes.magnitude_lt hds hgt)) (by omega)

theorem Significant.magnitude_inj (hds : Significant ds) (hes : Significant es)
    (h : Digits.fraction ds * 10 ^ a = Digits.fraction es * 10 ^ b) : a = b ∧ ds = es := by
  have hle := (hds.magnitude_le_iff hes).mp h.le
  have hge := (hes.magnitude_le_iff hds).mp h.ge
  have hab : a = b := by omega
  refine ⟨hab, lexLe_antisymm (fun _ _ => CodePoint.eq_of_val_eq) ?_ ?_⟩
  · exact (hle.resolve_left (by omega)).2
  · exact (hge.resolve_left (by omega)).2

end Magnitude

theorem toRat_ne_zero {p : NumberParts} (hp : Significant p.digits) : p.toRat ≠ 0 := by
  have hpos := hp.magnitude_pos p.point
  have hsign : signFactor p.negative ≠ 0 := by
    unfold signFactor
    split <;> norm_num
  rw [toRat, mul_assoc]
  exact mul_ne_zero hsign hpos.ne'

/-- A number has one representation by reduced parts. -/
theorem toRat_injective {p q : NumberParts} (hp : p.Reduced) (hq : q.Reduced) (h : p.toRat = q.toRat) : p = q := by
  rcases hp with rfl | hp
  · rcases hq with rfl | hq
    · rfl
    · rw [toRat_zero] at h
      exact absurd h.symm (toRat_ne_zero hq)
  · rcases hq with rfl | hq
    · rw [toRat_zero] at h
      exact absurd h (toRat_ne_zero hp)
    · obtain ⟨negative, ds, a⟩ := p
      obtain ⟨negative', es, b⟩ := q
      have hposp := hp.magnitude_pos a
      have hposq := hq.magnitude_pos b
      simp only [toRat, signFactor, mul_assoc] at h hposp hposq
      cases negative <;> cases negative' <;>
        simp only [Bool.false_eq_true, ↓reduceIte, one_mul, neg_mul] at h
      · obtain ⟨rfl, hds⟩ := hp.magnitude_inj hq h
        simpa using hds
      · linarith
      · linarith
      · obtain ⟨rfl, hds⟩ := hp.magnitude_inj hq (neg_inj.mp h)
        simpa using hds

/-! ### Number texts -/

theorem numberDenotes_iff {t : Text} {x : ℚ} :
    NumberDenotes t x ↔ ∃ p, ofText? t = some p ∧ p.toRat = x := by
  constructor
  · rintro ⟨n, hn, rfl⟩
    refine ⟨ofNumeral n, ?_, toRat_ofNumeral n⟩
    rw [ofText?, Numeral.ofText?_of_spelling hn, Option.map_some]
  · rintro ⟨p, hp, rfl⟩
    obtain ⟨n, hn, rfl⟩ := Option.map_eq_some_iff.mp hp
    exact ⟨n, Numeral.spelling_of_ofText? hn, (toRat_ofNumeral n).symm⟩

theorem number_of_denotes {t : Text} {x : ℚ} (h : NumberDenotes t x) : Grammar.Number t := by
  obtain ⟨n, hn, -⟩ := h
  exact isNumeral_iff.mp (Option.isSome_iff_exists.mpr ⟨n, Numeral.ofText?_of_spelling hn⟩)

theorem exists_reduced_of_number {t : Text} (ht : Grammar.Number t) :
    ∃ p, ofText? t = some p ∧ p.Reduced :=
  exists_reduced_of_isNumeral (isNumeral_iff.mpr ht)

theorem numberDenotes_toRat {t : Text} {p : NumberParts} (h : ofText? t = some p) : NumberDenotes t p.toRat :=
  numberDenotes_iff.mpr ⟨p, h, rfl⟩

theorem eq_toRat_of_numberDenotes {t : Text} {p : NumberParts} {x : ℚ} (hp : ofText? t = some p)
    (h : NumberDenotes t x) : x = p.toRat := by
  obtain ⟨q, hq, rfl⟩ := numberDenotes_iff.mp h
  rw [Option.some.inj (hp.symm.trans hq)]

/-- Number texts have the same parts exactly if they denote the same number. -/
theorem ofText?_eq_iff_denotes {t u : Text} (ht : Grammar.Number t) (hu : Grammar.Number u) :
    ofText? u = ofText? t ↔ ∃ x, NumberDenotes u x ∧ NumberDenotes t x := by
  obtain ⟨p, hp, hreduced⟩ := exists_reduced_of_number ht
  obtain ⟨q, hq, hreduced'⟩ := exists_reduced_of_number hu
  constructor
  · intro h
    exact ⟨p.toRat, numberDenotes_toRat (h.trans hp), numberDenotes_toRat hp⟩
  · rintro ⟨x, hux, htx⟩
    have hrat : q.toRat = p.toRat := by
      rw [← eq_toRat_of_numberDenotes hq hux, eq_toRat_of_numberDenotes hp htx]
    rw [hp, hq, toRat_injective hreduced' hreduced hrat]

theorem Reduced.toRat_eq_zero_iff {p : NumberParts} (hp : p.Reduced) : p.toRat = 0 ↔ p = zero := by
  constructor
  · intro h
    exact toRat_injective hp (.inl rfl) (h.trans toRat_zero.symm)
  · rintro rfl
    exact toRat_zero

theorem Reduced.digits {p : NumberParts} (hp : p.Reduced) :
    (∀ c ∈ p.digits, c.isDigit = true) ∧ p.digits.head? ≠ some (.ofChar '0')
      ∧ p.digits.getLast? ≠ some (.ofChar '0') := by
  rcases hp with rfl | hp
  · simp [zero]
  · refine ⟨hp.digits.2, ?_, ?_⟩
    · intro h
      exact absurd (hp.front _ h) (by simp)
    · intro h
      rw [List.getLast?_eq_head?_reverse] at h
      exact absurd (hp.back _ h) (by simp)

theorem isDigit_of_mem_exponent {e ds : Text} {negative : Bool} (h : Numeral.ExponentSpelling e negative ds) :
    ∀ c ∈ ds, c.isDigit = true := by
  cases h with
  | absent => simp
  | present mark sign ds isMark isSign digits => exact digits.2

/-- The parts of a number text are its exact value, whatever the length of its digits and of its exponent, which
is read in pieces: a sign, digits without a zero at either end and a point, and nothing else for the same number. -/
theorem ofText?_exact (t : Text) (ht : Grammar.Number t) :
    (∃ p x, ofText? t = some p ∧ NumberDenotes t x ∧ (∀ y, NumberDenotes t y → y = x)
      ∧ signFactor p.negative * Digits.fraction p.digits * 10 ^ p.point = x
      ∧ (∀ c ∈ p.digits, c.isDigit = true) ∧ p.digits.head? ≠ some (.ofChar '0')
      ∧ p.digits.getLast? ≠ some (.ofChar '0') ∧ (x = 0 ↔ p = ⟨false, [], 0⟩))
    ∧ (∀ n, Numeral.Spelling t n → Digits.toInt n.exponent = .ok (Digits.value n.exponent))
    ∧ ∀ u, Grammar.Number u → (ofText? u = ofText? t ↔ ∃ x, NumberDenotes u x ∧ NumberDenotes t x) := by
  obtain ⟨p, hp, hreduced⟩ := exists_reduced_of_number ht
  obtain ⟨hdigits, hfront, hback⟩ := hreduced.digits
  refine ⟨⟨p, p.toRat, hp, numberDenotes_toRat hp, fun _ => eq_toRat_of_numberDenotes hp, rfl, hdigits, hfront,
    hback, hreduced.toRat_eq_zero_iff⟩, ?_, ?_⟩
  · intro n hn
    obtain ⟨-, f, e, -, he, -⟩ := hn
    exact Digits.toInt_of_digits (isDigit_of_mem_exponent he)
  · intro u hu
    exact ofText?_eq_iff_denotes ht hu

/-- Two spellings of minus five hundred. -/
theorem ofText?_exact_respelled :
    let t : Text := Text.ofChars ['-', '0', '.', '5', '0', 'e', '+', '0', '3']
    let u : Text := Text.ofChars ['-', '5', '0', '0', '0', '0', 'E', '-', '2']
    Grammar.Number t ∧ Grammar.Number u ∧ ofText? t = some ⟨true, Text.ofChars ['5'], 3⟩
      ∧ (∃ x, NumberDenotes u x ∧ NumberDenotes t x)
      ∧ ∃ x, NumberDenotes t x ∧ x ≠ 0 := by
  intro t u
  have ht : Grammar.Number t := isNumeral_iff.mp (by decide)
  have hu : Grammar.Number u := isNumeral_iff.mp (by decide)
  have hparts : ofText? t = some ⟨true, Text.ofChars ['5'], 3⟩ := by decide
  obtain ⟨⟨p, x, hp, hx, -, -, -, -, -, hzero⟩, -, hsame⟩ := ofText?_exact t ht
  refine ⟨ht, hu, hparts, (hsame u hu).mp (by decide), x, hx, ?_⟩
  rw [ne_eq, hzero, Option.some.inj (hp.symm.trans hparts)]
  decide

end NumberParts

end CanonJson
