import CanonJson.Number.Digits
import CanonJson.Proofs.Text.Run
import CanonJson.Syntax.Grammar
/-!
# Numbers and their digits

`Digits.ofNat` writes a number a thousand digits at a time. However many pieces it takes, the result is
digits only, they denote the number, and no zero stands in front. `Digits.toInt` reads as many digits at a
time, and digits of any length are read as the number that they denote.
-/

namespace CanonJson.Digits

open Grammar (Digits)

/-! ### The value of digits -/

theorem foldl_digitValue (t : Text) (n : Nat) :
    t.foldl (fun n c => 10 * n + c.digitValue) n = Nat.pow 10 t.length * n + value t := by
  unfold value
  induction t generalizing n with
  | nil => simp
  | cons c t ih =>
    have hpow : Nat.pow 10 (t.length + 1) = Nat.pow 10 t.length * 10 := rfl
    rw [List.foldl_cons, List.foldl_cons, ih, ih (10 * 0 + c.digitValue), List.length_cons, hpow]
    simp only [Nat.mul_add, Nat.mul_assoc]
    omega

theorem value_append (s t : Text) : value (s ++ t) = Nat.pow 10 t.length * value s + value t := by
  rw [value, List.foldl_append]
  exact foldl_digitValue t (value s)

theorem value_replicate_zero (n : Nat) : value (List.replicate n (CodePoint.ofChar '0')) = 0 := by
  induction n with
  | zero => rfl
  | succ n ih =>
    rw [List.replicate_succ', value_append, ih]
    rfl

theorem value_ofChars (cs : List Char) : value (Text.ofChars cs) = Nat.ofDigitChars 10 cs 0 := by
  rw [Nat.ofDigitChars_eq_foldl, value, Text.ofChars, List.foldl_map]
  rfl

/-! ### The digits of a number -/

theorem isDigit_iff {c : CodePoint} : c.isDigit = true ↔ 0x30 ≤ c.val ∧ c.val ≤ 0x39 := by
  rw [CodePoint.isDigit, Bool.and_eq_true, decide_eq_true_eq, decide_eq_true_eq]

theorem isDigit_ofChar {ch : Char} (h : ch.isDigit = true) :
    (CodePoint.ofChar ch).isDigit = true := by
  simp only [Char.isDigit, Bool.and_eq_true, decide_eq_true_eq, ge_iff_le,
    UInt32.le_iff_toNat_le] at h
  rw [CodePoint.isDigit, Bool.and_eq_true]
  exact ⟨decide_eq_true h.1, decide_eq_true h.2⟩

theorem ofNat_eq_ofChars (n : Nat) : Text.ofNat n = Text.ofChars (Nat.toDigits 10 n) := by
  rw [Text.ofNat, Text.ofString, Nat.toList_repr]

theorem value_textOfNat (n : Nat) : value (Text.ofNat n) = n := by
  rw [ofNat_eq_ofChars, value_ofChars, Nat.ofDigitChars_ten_toDigits]

theorem digits_textOfNat (n : Nat) : Digits (Text.ofNat n) := by
  rw [ofNat_eq_ofChars]
  refine ⟨by simp [Text.ofChars], ?_⟩
  intro c hc
  obtain ⟨ch, hch, rfl⟩ := List.mem_map.mp hc
  exact isDigit_ofChar (Nat.isDigit_of_mem_toDigits (by decide) (by decide) hch)

theorem length_textOfNat_le {n k : Nat} (hk : 0 < k) (h : n < Nat.pow 10 k) :
    (Text.ofNat n).length ≤ k := by
  rw [ofNat_eq_ofChars, Text.ofChars, List.length_map]
  exact (Nat.length_toDigits_le_iff (by decide) hk).mpr h

/-! ### Pieces -/

theorem value_zeroFill (width : Nat) (t : Text) : value (zeroFill width t) = value t := by
  rw [zeroFill, value_append, value_replicate_zero, Nat.mul_zero, Nat.zero_add]

theorem length_zeroFill {width : Nat} {t : Text} (h : t.length ≤ width) :
    (zeroFill width t).length = width := by
  rw [zeroFill, List.length_append, List.length_replicate]
  omega

theorem digits_zeroFill {width : Nat} {t : Text} (h : Digits t) : Digits (zeroFill width t) := by
  refine ⟨by simp [zeroFill, h.1], ?_⟩
  intro c hc
  rcases List.mem_append.mp hc with hc | hc
  · rw [List.eq_of_mem_replicate hc]
    decide
  · exact h.2 c hc

theorem digits_append {s t : Text} (hs : Digits s) (ht : Digits t) : Digits (s ++ t) := by
  refine ⟨by simp [hs.1], ?_⟩
  intro c hc
  rcases List.mem_append.mp hc with hc | hc
  · exact hs.2 c hc
  · exact ht.2 c hc

theorem digits_ofNat (n : Nat) : Digits (ofNat n) := by
  fun_induction ofNat n with
  | case1 n => exact digits_textOfNat n
  | case2 n _ ih => exact digits_append ih (digits_zeroFill (digits_textOfNat _))

theorem pow_ten_pos (k : Nat) : 0 < Nat.pow 10 k :=
  Nat.pow_pos (by decide)

theorem pieceBase_pos : 0 < pieceBase := by
  unfold pieceBase
  exact pow_ten_pos pieceLength

/-- The digits of a number denote it. -/
theorem value_ofNat (n : Nat) : value (ofNat n) = n := by
  fun_induction ofNat n with
  | case1 n => exact value_textOfNat n
  | case2 n hn ih =>
    have hpos : 0 < pieceLength := by decide
    have hmod : n % pieceBase < Nat.pow 10 pieceLength := by
      unfold pieceBase
      exact Nat.mod_lt n (pow_ten_pos pieceLength)
    rw [value_append, ih, value_zeroFill, value_textOfNat,
      length_zeroFill (length_textOfNat_le hpos hmod)]
    unfold pieceBase
    exact Nat.div_add_mod n _

/-! ### The size of digits -/

theorem digitValue_lt_ten {c : CodePoint} (h : c.isDigit = true) : c.digitValue < 10 := by
  rw [isDigit_iff] at h
  unfold CodePoint.digitValue
  omega

theorem value_cons (c : CodePoint) (t : Text) :
    value (c :: t) = Nat.pow 10 t.length * c.digitValue + value t := by
  have hone : value [c] = c.digitValue := by simp [value]
  rw [← List.singleton_append, value_append, hone]

theorem value_lt {t : Text} (h : ∀ c ∈ t, c.isDigit = true) : value t < Nat.pow 10 t.length := by
  induction t with
  | nil => decide
  | cons c t ih =>
    obtain ⟨hc, ht⟩ := List.forall_mem_cons.mp h
    have hpow : Nat.pow 10 (t.length + 1) = Nat.pow 10 t.length * 10 := rfl
    have hmul : Nat.pow 10 t.length * c.digitValue ≤ Nat.pow 10 t.length * 9 :=
      Nat.mul_le_mul_left _ (Nat.le_of_lt_succ (digitValue_lt_ten hc))
    have hrest := ih ht
    rw [value_cons, List.length_cons, hpow]
    omega

theorem is_eq_false_of_digit {c : CodePoint} (hc : c.isDigit = true) (ch : Char)
    (hch : (CodePoint.ofChar ch).isDigit = false) : c.is ch = false := by
  rw [CodePoint.is_eq_false_iff]
  rintro rfl
  rw [hc] at hch
  cases hch

/-! ### No zero in front -/

theorem halts_textOfNat {n : Nat} (hn : 0 < n) : (Text.ofNat n).Halts (·.is '0') := by
  have hdigits := digits_textOfNat n
  have hvalue := value_textOfNat n
  cases htext : Text.ofNat n with
  | nil => exact Text.halts_nil
  | cons c t =>
    rw [htext] at hdigits hvalue
    rw [Text.halts_cons, CodePoint.is_eq_false_iff]
    rintro rfl
    -- Without the zero the rest would be digits of the same number, and one digit fewer is too few.
    have hzero : (CodePoint.ofChar '0').digitValue = 0 := rfl
    have hlt := value_lt fun c hc => hdigits.2 c (List.mem_cons_of_mem _ hc)
    rw [value_cons, hzero, Nat.mul_zero, Nat.zero_add] at hvalue
    rw [hvalue] at hlt
    cases t with
    | nil => exact absurd hvalue (Nat.ne_of_lt hn)
    | cons d t =>
      have hlength := length_textOfNat_le (Nat.succ_pos t.length) hlt
      rw [htext, List.length_cons, List.length_cons] at hlength
      omega

theorem halts_ofNat {n : Nat} (hn : 0 < n) : (ofNat n).Halts (·.is '0') := by
  fun_induction ofNat n with
  | case1 n => exact halts_textOfNat hn
  | case2 n hbase ih =>
    have hquotient := Nat.div_pos (Nat.le_of_not_lt hbase) pieceBase_pos
    exact (ih hquotient).append fun hnil => absurd hnil (digits_ofNat _).1

theorem ofNat_of_lt {n : Nat} (h : n < pieceBase) : ofNat n = Text.ofNat n := by
  fun_cases ofNat n with
  | case1 => rfl
  | case2 hn => exact absurd h hn

theorem ofNat_zero : ofNat 0 = [CodePoint.ofChar '0'] :=
  (ofNat_of_lt pieceBase_pos).trans (by decide)

/-! ### Reading in pieces -/

theorem flatten_pieces {α : Type} (n : Nat) (l : List α) : (pieces n l).flatten = l := by
  fun_induction pieces n l with
  | case1 => rfl
  | case2 a l ih => rw [List.flatten_cons, ih, List.cons_append, List.take_append_drop]

theorem ne_nil_of_mem_pieces {α : Type} {n : Nat} {l p : List α} (h : p ∈ pieces n l) : p ≠ [] := by
  fun_induction pieces n l with
  | case1 => cases h
  | case2 a l ih =>
    rcases List.mem_cons.mp h with rfl | h
    · exact List.cons_ne_nil _ _
    · exact ih h

theorem digits_of_mem_pieces {n : Nat} {t p : Text} (ht : ∀ c ∈ t, c.isDigit = true)
    (h : p ∈ pieces n t) : Digits p := by
  refine ⟨ne_nil_of_mem_pieces h, ?_⟩
  intro c hc
  have hmem : c ∈ (pieces n t).flatten := List.mem_flatten.mpr ⟨p, h, hc⟩
  rw [flatten_pieces] at hmem
  exact ht c hmem

theorem isMargin_of_isDigit {c : CodePoint} (h : c.isDigit = true) : Text.isMargin c = false := by
  rw [isDigit_iff] at h
  have hblank : Text.isBlank c = false := by
    simp only [Text.isBlank, Bool.or_eq_false_iff, Bool.and_eq_false_iff, decide_eq_false_iff_not,
      beq_eq_false_iff_ne]
    omega
  rw [Text.isMargin, hblank, Bool.false_and]

theorem trim_of_forall {p : CodePoint → Bool} {t : Text} (h : ∀ c ∈ t, p c = false) :
    Text.trim p t = t := by
  have hdrop : ∀ s : Text, (∀ c ∈ s, p c = false) → s.dropWhile p = s := by
    intro s hs
    cases s with
    | nil => rfl
    | cons c s => exact List.dropWhile_cons_of_neg (by simp [hs c (by simp)])
  rw [Text.trim, hdrop t h, hdrop t.reverse fun c hc => h c (List.mem_reverse.mp hc), List.reverse_reverse]

theorem readGrouped?_of_digits {t : Text} (h : ∀ c ∈ t, c.isDigit = true) (n : Nat) (afterDigit : Bool)
    (hne : t = [] → afterDigit = true) :
    readGrouped? t n afterDigit = some (t.foldl (fun n c => 10 * n + c.digitValue) n) := by
  induction t generalizing n afterDigit with
  | nil => simp [readGrouped?, hne rfl]
  | cons c t ih =>
    obtain ⟨hc, ht⟩ := List.forall_mem_cons.mp h
    have hdigit : Text.decimalDigit? c = some c.digitValue := by rw [Text.decimalDigit?, if_pos hc]
    rw [readGrouped?, hdigit]
    exact ih ht _ true fun _ => rfl

theorem readInteger?_of_digits {t : Text} (h : Digits t) : readInteger? t = some (value t : Int) := by
  have htrim := trim_of_forall fun c hc => isMargin_of_isDigit (h.2 c hc)
  have hread := readGrouped?_of_digits h.2 0 false fun hnil => absurd hnil h.1
  cases t with
  | nil => exact absurd rfl h.1
  | cons c t =>
    have hminus := is_eq_false_of_digit (h.2 c (by simp)) '-' (by decide)
    have hplus := is_eq_false_of_digit (h.2 c (by simp)) '+' (by decide)
    simp only [readInteger?, htrim, hminus, hplus, hread, Bool.false_eq_true, ↓reduceIte, Option.map_some]
    rfl

/-- Pieces of digits that are read one behind the other give the number that all their digits denote. -/
theorem foldlM_pieces {ps : List Text} (h : ∀ p ∈ ps, Digits p) (n : Nat) :
    ps.foldlM (fun (n : Int) piece =>
      match readInteger? piece with
      | some k => (.ok (n * Nat.pow 10 piece.length + k) : Except Text Int)
      | none => .error piece) (n : Int)
      = .ok ((Nat.pow 10 ps.flatten.length * n + value ps.flatten : Nat) : Int) := by
  induction ps generalizing n with
  | nil => simp [value]; rfl
  | cons p ps ih =>
    obtain ⟨hp, hps⟩ := List.forall_mem_cons.mp h
    have hpow : Nat.pow 10 (p.length + ps.flatten.length)
        = Nat.pow 10 p.length * Nat.pow 10 ps.flatten.length := Nat.pow_add 10 _ _
    have hvalue : Nat.pow 10 (p ++ ps.flatten).length * n + value (p ++ ps.flatten)
        = Nat.pow 10 ps.flatten.length * (n * Nat.pow 10 p.length + value p) + value ps.flatten := by
      rw [List.length_append, value_append, hpow, Nat.mul_add, ← Nat.add_assoc]
      congr 2
      ac_rfl
    rw [List.foldlM_cons, List.flatten_cons, hvalue, ← ih hps]
    simp only [readInteger?_of_digits hp]
    rfl

/-- Digits of any length, read a piece at a time, are read as the number that they denote. -/
theorem toInt_of_digits {t : Text} (h : ∀ c ∈ t, c.isDigit = true) : toInt t = .ok (value t : Int) := by
  have hpieces := foldlM_pieces (fun p hp => digits_of_mem_pieces (n := pieceLength - 1) h hp) 0
  rw [flatten_pieces, Nat.mul_zero, Nat.zero_add] at hpieces
  exact hpieces

end CanonJson.Digits
