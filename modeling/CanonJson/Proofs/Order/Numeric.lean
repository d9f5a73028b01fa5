import CanonJson.Proofs.Number.Rational
import CanonJson.Proofs.Order.Element
import Mathlib.Data.List.Lex
import Mathlib.Data.Prod.Lex
/-!
# Numbers are sorted by value

The sort key of a number is its side of zero, its point and its digits, the last two turned round below zero. Read
as a tuple it is compared lexicographically, and that is the order of the numbers that the texts denote
(`NumberKey.ofParts_le_iff`): a greater point outweighs all digits, digits behind the same point compare from left
to right, and complements of digits compare the other way round. Nothing depends on how many digits there are or how
large an exponent is.
-/

namespace CanonJson

open NumberParts (Significant)

/-! ### Lists of digits -/

/-- Comparing by a rank is comparing the lists of ranks lexicographically. -/
theorem lexLe_iff_map_le {α : Type} {rank : α → ℕ} {as bs : List α} :
    lexLe rank as bs = true ↔ as.map rank ≤ bs.map rank := by
  induction as generalizing bs with
  | nil => simp [lexLe, ← not_lt]
  | cons a as ih =>
    cases bs with
    | nil => simp [lexLe, ← not_lt]
    | cons b bs =>
      rw [lexLe_cons_cons, ih, List.map_cons, List.map_cons, ← not_lt, ← not_lt, List.cons_lt_cons_iff]
      rcases Nat.lt_trichotomy (rank a) (rank b) with hlt | heq | hgt
      · simp [hlt, hlt.le, hlt.ne']
      · simp [heq]
      · simp [hgt, hgt.ne', hgt.le]

theorem lexLe_digitValue {ds es : Text} (hds : ∀ c ∈ ds, c.isDigit = true) (hes : ∀ c ∈ es, c.isDigit = true) :
    lexLe CodePoint.digitValue ds es = lexLe CodePoint.val ds es := by
  rw [Bool.eq_iff_iff]
  induction ds generalizing es with
  | nil => simp [lexLe]
  | cons c ds ih =>
    cases es with
    | nil => simp [lexLe]
    | cons d es =>
      obtain ⟨hc, hds⟩ := List.forall_mem_cons.mp hds
      obtain ⟨hd, hes⟩ := List.forall_mem_cons.mp hes
      rw [lexLe_cons_cons, lexLe_cons_cons, ih hds hes, Digits.val_eq_digitValue hc, Digits.val_eq_digitValue hd,
        Nat.add_lt_add_iff_left, Nat.add_left_cancel_iff]

/-- What the digits of a number below zero are compared by. -/
def complement (ds : Text) : List ℕ :=
  ds.map (fun c => 9 - c.digitValue) ++ [10]

/-- Complements compare the other way round; the ten behind them comes after every digit that goes on. -/
theorem lexLe_complement {ds es : Text} (hds : ∀ c ∈ ds, c.isDigit = true) (hes : ∀ c ∈ es, c.isDigit = true) :
    lexLe id (complement ds) (complement es) = lexLe CodePoint.val es ds := by
  rw [← lexLe_digitValue hes hds, Bool.eq_iff_iff]
  unfold complement
  induction ds generalizing es with
  | nil =>
    cases es with
    | nil => simp [lexLe]
    | cons d es =>
      rw [List.map_nil, List.nil_append, List.map_cons, List.cons_append, lexLe_cons_cons]
      simp [lexLe]
      omega
  | cons c ds ih =>
    have hc := Digits.digitValue_lt_ten (hds c (by simp))
    cases es with
    | nil =>
      rw [List.map_nil, List.nil_append, List.map_cons, List.cons_append, lexLe_cons_cons]
      simp [lexLe]
      omega
    | cons d es =>
      have hd := Digits.digitValue_lt_ten (hes d (by simp))
      have hlt : 9 - c.digitValue < 9 - d.digitValue ↔ d.digitValue < c.digitValue := by omega
      have heq : 9 - c.digitValue = 9 - d.digitValue ↔ d.digitValue = c.digitValue := by omega
      rw [List.map_cons, List.map_cons, List.cons_append, List.cons_append, lexLe_cons_cons, lexLe_cons_cons,
        ih (fun c hc => hds c (by simp [hc])) (fun c hc => hes c (by simp [hc])), id, id, hlt, heq]

/-! ### Keys -/

namespace NumberKey

/-- The key as a tuple, which is compared lexicographically. -/
def tuple (k : NumberKey) : ℕ ×ₗ ℤ ×ₗ List ℕ :=
  toLex (k.side, toLex (k.point, k.digits))

theorem tuple_inj {a b : NumberKey} : a.tuple = b.tuple ↔ a = b := by
  constructor
  · intro h
    simp only [tuple, toLex_inj, Prod.mk.injEq] at h
    obtain ⟨hside, hpoint, hdigits⟩ := h
    cases a
    cases b
    simp_all
  · rintro rfl
    rfl

theorem le_iff_tuple_le {a b : NumberKey} : a.le b = true ↔ a.tuple ≤ b.tuple := by
  rw [le_iff, tuple, tuple, Prod.Lex.toLex_le_toLex, Prod.Lex.toLex_le_toLex, lexLe_iff_map_le, List.map_id,
    List.map_id]

/-- What the key of reduced parts is, and on which side of zero the number is. -/
theorem ofParts_spec {p : NumberParts} (hp : p.Reduced) :
    (ofParts p = ⟨1, 0, []⟩ ∧ p.toRat = 0)
    ∨ ∃ ds a, Significant ds
      ∧ (ofParts p = ⟨0, -a, complement ds⟩ ∧ p.toRat = -(Digits.fraction ds * 10 ^ a)
        ∨ ofParts p = ⟨2, a, ds.map CodePoint.digitValue⟩ ∧ p.toRat = Digits.fraction ds * 10 ^ a) := by
  rcases hp with rfl | hds
  · exact .inl ⟨rfl, NumberParts.toRat_zero⟩
  · obtain ⟨negative, ds, a⟩ := p
    have hne : ds.isEmpty = false := by simpa using hds.digits.1
    refine .inr ⟨ds, a, hds, ?_⟩
    cases negative with
    | true => exact .inl ⟨by simp [ofParts, hne, complement], by simp [NumberParts.toRat, signFactor]⟩
    | false => exact .inr ⟨by simp [ofParts, hne], by simp [NumberParts.toRat, signFactor]⟩

/-- The keys of reduced parts compare as the numbers that the parts stand for. -/
theorem ofParts_le_iff {p q : NumberParts} (hp : p.Reduced) (hq : q.Reduced) :
    (ofParts p).le (ofParts q) = true ↔ p.toRat ≤ q.toRat := by
  rcases ofParts_spec hp with ⟨hkey, hrat⟩ | ⟨ds, a, hds, hp⟩
  · rcases ofParts_spec hq with ⟨hkey', hrat'⟩ | ⟨es, b, hes, ⟨hkey', hrat'⟩ | ⟨hkey', hrat'⟩⟩
    · simp [le_iff, hkey, hkey', hrat, hrat', lexLe]
    · have hpos := hes.magnitude_pos b
      simp [le_iff, hkey, hkey', hrat, hrat', hpos]
    · have hpos := hes.magnitude_pos b
      simp [le_iff, hkey, hkey', hrat, hrat', hpos.le]
  · have hpos := hds.magnitude_pos a
    rcases hp with ⟨hkey, hrat⟩ | ⟨hkey, hrat⟩
    · rcases ofParts_spec hq with ⟨hkey', hrat'⟩ | ⟨es, b, hes, ⟨hkey', hrat'⟩ | ⟨hkey', hrat'⟩⟩
      · simp [le_iff, hkey, hkey', hrat, hrat', hpos.le]
      · -- Below zero the greater magnitude comes first.
        have hcomm : a = b ↔ b = a := eq_comm
        rw [hrat, hrat', neg_le_neg_iff, hes.magnitude_le_iff hds, le_iff, hkey, hkey',
          lexLe_complement hds.digits.2 hes.digits.2]
        simp [hcomm]
      · have hpos' := hes.magnitude_pos b
        simp only [le_iff, hkey, hkey', hrat, hrat']
        exact iff_of_true (by simp) (by linarith)
    · rcases ofParts_spec hq with ⟨hkey', hrat'⟩ | ⟨es, b, hes, ⟨hkey', hrat'⟩ | ⟨hkey', hrat'⟩⟩
      · simp [le_iff, hkey, hkey', hrat, hrat', hpos]
      · have hpos' := hes.magnitude_pos b
        simp only [le_iff, hkey, hkey', hrat, hrat']
        exact iff_of_false (by simp) (by linarith)
      · rw [hrat, hrat', hds.magnitude_le_iff hes, le_iff, hkey, hkey', lexLe_map, Function.id_comp,
          lexLe_digitValue hds.digits.2 hes.digits.2]
        simp

theorem ofParts_eq_iff {p q : NumberParts} (hp : p.Reduced) (hq : q.Reduced) :
    ofParts p = ofParts q ↔ p.toRat = q.toRat := by
  constructor
  · intro h
    have hle : (ofParts p).le (ofParts q) = true := by
      rw [h]
      exact totalOn_le.refl trivial
    have hge : (ofParts q).le (ofParts p) = true := by
      rw [h]
      exact totalOn_le.refl trivial
    exact le_antisymm ((ofParts_le_iff hp hq).mp hle) ((ofParts_le_iff hq hp).mp hge)
  · intro h
    rw [NumberParts.toRat_injective hp hq h]

end NumberKey

theorem typedKey_number {t : Text} {p : NumberParts} (h : NumberParts.ofText? t = some p) :
    TypedKey.ofValue (.number t) = .ok (.number (.ofParts p)) := by
  rw [TypedKey.ofValue, h]

/-- The sort keys of numbers, compared as tuples, are in the order of the numbers, and they are the same exactly for
the same number. -/
theorem numberKey_lt_iff_denotes_lt (a b : Text) (ha : Grammar.Number a) (hb : Grammar.Number b) :
    ∃ j k x y, TypedKey.ofValue (.number a) = .ok (.number j) ∧ TypedKey.ofValue (.number b) = .ok (.number k)
      ∧ NumberDenotes a x ∧ NumberDenotes b y
      ∧ (j.tuple < k.tuple ↔ x < y) ∧ (j.tuple = k.tuple ↔ x = y) ∧ (j.le k = true ↔ x ≤ y) := by
  obtain ⟨p, hp, hreduced⟩ := NumberParts.exists_reduced_of_number ha
  obtain ⟨q, hq, hreduced'⟩ := NumberParts.exists_reduced_of_number hb
  refine ⟨.ofParts p, .ofParts q, p.toRat, q.toRat, typedKey_number hp, typedKey_number hq,
    NumberParts.numberDenotes_toRat hp, NumberParts.numberDenotes_toRat hq, ?_, ?_, ?_⟩
  · rw [← not_le, ← NumberKey.le_iff_tuple_le, NumberKey.ofParts_le_iff hreduced' hreduced, not_le]
  · rw [NumberKey.tuple_inj, NumberKey.ofParts_eq_iff hreduced hreduced']
  · exact NumberKey.ofParts_le_iff hreduced hreduced'

/-- Below zero, one number begins with all the digits of the other. -/
theorem numberKey_lt_iff_denotes_lt_negative :
    let a : Text := Text.ofChars ['-', '0', '.', '1', '2', '3']
    let b : Text := Text.ofChars ['-', '1', '2', '0', 'e', '-', '3']
    Grammar.Number a ∧ Grammar.Number b ∧ ∃ x y, NumberDenotes a x ∧ NumberDenotes b y ∧ x < y := by
  intro a b
  have ha : Grammar.Number a := isNumeral_iff.mp (by decide)
  have hb : Grammar.Number b := isNumeral_iff.mp (by decide)
  obtain ⟨j, k, x, y, hj, hk, hx, hy, hlt, -, -⟩ := numberKey_lt_iff_denotes_lt a b ha hb
  have hj' : TypedKey.ofValue (.number a) = .ok (.number ⟨0, 0, [8, 7, 6, 10]⟩) := rfl
  have hk' : TypedKey.ofValue (.number b) = .ok (.number ⟨0, 0, [8, 7, 10]⟩) := rfl
  obtain rfl : j = ⟨0, 0, [8, 7, 6, 10]⟩ := by simpa [hj'] using hj.symm
  obtain rfl : k = ⟨0, 0, [8, 7, 10]⟩ := by simpa [hk'] using hk.symm
  exact ⟨ha, hb, x, y, hx, hy, hlt.mp (by decide)⟩

end CanonJson
