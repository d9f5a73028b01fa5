import CanonJson.Number.Numeral
import CanonJson.Proofs.Text.Run
import CanonJson.Syntax.Grammar
/-!
# How numerals are spelled

`Numeral.ofText?` takes a number apart from left to right, each part as long as it goes. `Spelling`
says the same of a text without reading it: which sign, digits, fraction and exponent it is made of.
The two agree on every text (`Numeral.ofText?_eq_some_iff`), and the texts that spell some numeral are
the numbers of the grammar (`isNumeral_iff`). The parts of a given spelling are known exactly, which is
what reading a printed number back needs.
-/

namespace CanonJson

open Grammar (Digits IntegerPart)

namespace Numeral

inductive FractionSpelling : Text → Text → Prop where
  | absent : FractionSpelling [] []
  | present (ds : Text) (digits : Digits ds) : FractionSpelling (CodePoint.ofChar '.' :: ds) ds

inductive ExponentSpelling : Text → Bool → Text → Prop where
  | absent : ExponentSpelling [] false []
  | present (mark : Char) (sign : List Char) (ds : Text) (isMark : mark = 'e' ∨ mark = 'E')
      (isSign : sign = [] ∨ sign = ['+'] ∨ sign = ['-']) (digits : Digits ds) :
      ExponentSpelling (CodePoint.ofChar mark :: Text.ofChars sign ++ ds) (sign == ['-']) ds

def signText (negative : Bool) : Text :=
  if negative then [CodePoint.ofChar '-'] else []

structure Spelling (t : Text) (n : Numeral) : Prop where
  integer : IntegerPart n.integer
  parts : ∃ f e, FractionSpelling f n.fraction ∧ ExponentSpelling e n.exponentNegative n.exponent
    ∧ t = signText n.negative ++ n.integer ++ f ++ e

/-! ### Digits in front -/

theorem spanDigits_append {ds rest : Text} (hds : ∀ c ∈ ds, c.isDigit = true)
    (hrest : rest.Halts CodePoint.isDigit) : spanDigits (ds ++ rest) = (ds, rest) := by
  rw [spanDigits, Text.takeWhile_append_of_halts hds hrest,
    Text.dropWhile_append_of_halts hds hrest]

theorem spanDigits_spec (t : Text) :
    t = (spanDigits t).1 ++ (spanDigits t).2 ∧ ∀ c ∈ (spanDigits t).1, c.isDigit = true := by
  refine ⟨List.takeWhile_append_dropWhile.symm, ?_⟩
  intro c hc
  exact List.all_eq_true.mp List.all_takeWhile c hc

theorem integerPart_iff {ds : Text} :
    IntegerPart ds ↔ (∀ c ∈ ds, c.isDigit = true) ∧ isInteger ds = true := by
  constructor
  · intro h
    cases h with
    | zero => simp [isInteger]; decide
    | positive d ds first nonzero more =>
      refine ⟨?_, ?_⟩
      · intro c hc
        rcases List.mem_cons.mp hc with rfl | hc
        · exact first
        · exact more c hc
      · simp [isInteger, CodePoint.is_eq_false_iff.mpr nonzero]
  · rintro ⟨hds, hint⟩
    cases ds with
    | nil => simp [isInteger] at hint
    | cons d ds =>
      by_cases hzero : d = CodePoint.ofChar '0'
      · subst hzero
        have hnil : ds = [] := by simpa [isInteger] using hint
        rw [hnil]
        exact .zero
      · exact .positive d ds (hds d (by simp)) hzero fun c hc => hds c (by simp [hc])

theorem exists_cons_of_integerPart {ds : Text} (h : IntegerPart ds) :
    ∃ d ds', ds = d :: ds' ∧ d.isDigit = true := by
  cases h with
  | zero => exact ⟨_, [], rfl, by decide⟩
  | positive d ds first nonzero more => exact ⟨d, ds, rfl, first⟩

/-! ### Sign, fraction and exponent -/

theorem readSign_append {negative : Bool} {t : Text} (ht : t.Halts (·.is '-')) :
    readSign (signText negative ++ t) = (negative, t) := by
  cases negative with
  | true => simp [readSign, signText]
  | false =>
    cases t with
    | nil => rfl
    | cons c t =>
      have hc : c.is '-' = false := by simpa using ht
      simp [readSign, signText, hc]

theorem of_readSign {t rest : Text} {negative : Bool} (h : readSign t = (negative, rest)) :
    t = signText negative ++ rest := by
  unfold readSign at h
  split at h
  · split at h
    · rename_i c rest' hc
      obtain ⟨rfl, rfl⟩ := Prod.mk.inj h
      rw [CodePoint.is_iff.mp hc]
      rfl
    · obtain ⟨rfl, rfl⟩ := Prod.mk.inj h
      rfl
  · obtain ⟨rfl, rfl⟩ := Prod.mk.inj h
    rfl

theorem readFraction?_append {f ds rest : Text} (hf : FractionSpelling f ds)
    (hdigit : rest.Halts CodePoint.isDigit) (hpoint : rest.Halts (·.is '.')) :
    readFraction? (f ++ rest) = some (ds, rest) := by
  cases hf with
  | absent =>
    cases rest with
    | nil => rfl
    | cons c rest =>
      have hc : c.is '.' = false := by simpa using hpoint
      simp [readFraction?, hc]
  | present ds digits =>
    simp [readFraction?, spanDigits_append digits.2 hdigit, digits.1]

theorem of_readFraction? {t ds rest : Text} (h : readFraction? t = some (ds, rest)) :
    ∃ f, FractionSpelling f ds ∧ t = f ++ rest := by
  unfold readFraction? at h
  split at h
  · rename_i c rest'
    split at h
    · rename_i hc
      obtain ⟨hsplit, hds⟩ := spanDigits_spec rest'
      simp only at h
      split at h
      · simp at h
      · rename_i hne
        simp only [Option.some.injEq, Prod.mk.injEq] at h
        obtain ⟨rfl, rfl⟩ := h
        refine ⟨_, .present _ ⟨by simpa using hne, hds⟩, ?_⟩
        rw [CodePoint.is_iff.mp hc, List.cons_append, ← hsplit]
    · simp only [Option.some.injEq, Prod.mk.injEq] at h
      obtain ⟨rfl, rfl⟩ := h
      exact ⟨[], .absent, rfl⟩
  · simp only [Option.some.injEq, Prod.mk.injEq] at h
    obtain ⟨rfl, rfl⟩ := h
    exact ⟨[], .absent, rfl⟩

theorem readExponent?_eq {e ds : Text} {negative : Bool} (he : ExponentSpelling e negative ds) :
    readExponent? e = some (negative, ds, []) := by
  cases he with
  | absent => rfl
  | present mark sign ds isMark isSign digits =>
    have hmark : ((CodePoint.ofChar mark).is 'e' || (CodePoint.ofChar mark).is 'E') = true := by
      rcases isMark with rfl | rfl <;> decide
    have hspan : spanDigits ds = (ds, []) := by
      simpa using @spanDigits_append ds [] digits.2 Text.halts_nil
    obtain ⟨d, ds, rfl⟩ := List.exists_cons_of_ne_nil digits.1
    have hd : d.isDigit = true := digits.2 d (by simp)
    have hminus : d.is '-' = false := by
      rw [CodePoint.is_eq_false_iff]
      rintro rfl
      exact absurd hd (by decide)
    have hplus : d.is '+' = false := by
      rw [CodePoint.is_eq_false_iff]
      rintro rfl
      exact absurd hd (by decide)
    have hsign : (CodePoint.ofChar '+').is '-' = false := by decide
    rcases isSign with rfl | rfl | rfl
    · simp [readExponent?, hmark, Text.ofChars, hminus, hplus, hspan]
    · simp [readExponent?, hmark, Text.ofChars, hsign, hspan]
    · simp [readExponent?, hmark, Text.ofChars, hspan]

theorem of_readExponent? {t ds rest : Text} {negative : Bool}
    (h : readExponent? t = some (negative, ds, rest)) :
    ∃ e, ExponentSpelling e negative ds ∧ t = e ++ rest := by
  unfold readExponent? at h
  split at h
  · rename_i c rest'
    split at h
    · rename_i hc
      obtain ⟨mark, hmark, hcmark⟩ : ∃ mark : Char, (mark = 'e' ∨ mark = 'E') ∧ c = CodePoint.ofChar mark := by
        rcases Bool.or_eq_true _ _ ▸ hc with he | hE
        · exact ⟨'e', .inl rfl, CodePoint.is_iff.mp he⟩
        · exact ⟨'E', .inr rfl, CodePoint.is_iff.mp hE⟩
      -- Whatever sign the digits stand behind, the rest of the exponent is read the same way.
      have hdigits : ∀ (sign : List Char) (body : Text), (sign = [] ∨ sign = ['+'] ∨ sign = ['-']) →
          rest' = Text.ofChars sign ++ body →
          (if (spanDigits body).1.isEmpty then none
            else some (sign == ['-'], (spanDigits body).1, (spanDigits body).2)) = some (negative, ds, rest) →
          ∃ e, ExponentSpelling e negative ds ∧ c :: rest' = e ++ rest := by
        intro sign body hsign hrest hread
        obtain ⟨hsplit, hds⟩ := spanDigits_spec body
        split at hread
        · simp at hread
        · rename_i hne
          simp only [Option.some.injEq, Prod.mk.injEq] at hread
          obtain ⟨rfl, rfl, rfl⟩ := hread
          refine ⟨_, .present mark sign _ hmark hsign ⟨by simpa using hne, hds⟩, ?_⟩
          rw [hcmark, hrest, List.cons_append, List.cons_append, List.append_assoc, ← hsplit]
      cases rest' with
      | nil => exact hdigits [] [] (.inl rfl) rfl h
      | cons s rest'' =>
        simp only at h
        split at h
        · rename_i hs
          exact hdigits ['-'] rest'' (.inr (.inr rfl)) (by rw [CodePoint.is_iff.mp hs]; rfl) h
        · split at h
          · rename_i hs
            exact hdigits ['+'] rest'' (.inr (.inl rfl)) (by rw [CodePoint.is_iff.mp hs]; rfl) h
          · exact hdigits [] (s :: rest'') (.inl rfl) rfl h
    · simp only [Option.some.injEq, Prod.mk.injEq] at h
      obtain ⟨rfl, rfl, rfl⟩ := h
      exact ⟨[], .absent, rfl⟩
  · simp only [Option.some.injEq, Prod.mk.injEq] at h
    obtain ⟨rfl, rfl, rfl⟩ := h
    exact ⟨[], .absent, rfl⟩

/-! ### The whole number -/

theorem halts_exponent {p : CodePoint → Bool} {e ds : Text} {negative : Bool}
    (he : ExponentSpelling e negative ds) (hp : p (CodePoint.ofChar 'e') = false)
    (hP : p (CodePoint.ofChar 'E') = false) : e.Halts p := by
  cases he with
  | absent => exact Text.halts_nil
  | present mark sign ds isMark =>
    rcases isMark with rfl | rfl
    · exact Text.halts_cons.mpr hp
    · exact Text.halts_cons.mpr hP

private theorem halts_fraction {p : CodePoint → Bool} {f ds : Text} (hf : FractionSpelling f ds)
    (hp : p (CodePoint.ofChar '.') = false) : f.Halts p := by
  cases hf with
  | absent => exact Text.halts_nil
  | present ds => exact Text.halts_cons.mpr hp

private theorem halts_minus_of_digit {c : CodePoint} {t : Text} (hc : c.isDigit = true) :
    Text.Halts (·.is '-') (c :: t) := by
  rw [Text.halts_cons, CodePoint.is_eq_false_iff]
  rintro rfl
  exact absurd hc (by decide)

theorem ofText?_of_spelling {t : Text} {n : Numeral} (h : Spelling t n) : ofText? t = some n := by
  obtain ⟨hint, f, e, hf, he, rfl⟩ := h
  obtain ⟨hdigits, hinteger⟩ := integerPart_iff.mp hint
  have hsign : readSign (signText n.negative ++ n.integer ++ f ++ e)
      = (n.negative, n.integer ++ (f ++ e)) := by
    rw [List.append_assoc, List.append_assoc, readSign_append]
    cases hi : n.integer with
    | nil => rw [hi] at hinteger; simp [isInteger] at hinteger
    | cons c cs => exact halts_minus_of_digit (hdigits c (by simp [hi]))
  have hspan : spanDigits (n.integer ++ (f ++ e)) = (n.integer, f ++ e) :=
    spanDigits_append hdigits
      ((halts_fraction hf (by decide)).append fun _ => halts_exponent he (by decide) (by decide))
  have hfraction : readFraction? (f ++ e) = some (n.fraction, e) :=
    readFraction?_append hf (halts_exponent he (by decide) (by decide))
      (halts_exponent he (by decide) (by decide))
  simp only [ofText?, hsign, hspan, hinteger, hfraction, readExponent?_eq he, ↓reduceIte]

theorem spelling_of_ofText? {t : Text} {n : Numeral} (h : ofText? t = some n) : Spelling t n := by
  obtain ⟨hsplit, hdigits⟩ := spanDigits_spec (readSign t).2
  have hsign := of_readSign (t := t) rfl
  simp only [ofText?] at h
  split at h
  · rename_i hinteger
    split at h
    · simp at h
    · rename_i fraction t₃ hfraction
      obtain ⟨f, hf, ht₃⟩ := of_readFraction? hfraction
      split at h
      · rename_i negative ds hexponent
        obtain ⟨e, he, rfl⟩ := of_readExponent? hexponent
        obtain rfl := Option.some.inj h
        refine ⟨integerPart_iff.mpr ⟨hdigits, hinteger⟩, f, e, hf, he, ?_⟩
        rw [List.append_nil] at ht₃
        rw [List.append_assoc, List.append_assoc, ← ht₃, ← hsplit]
        exact hsign
      · simp at h
  · simp at h

/-- Reading a number finds the numeral that the text spells. -/
theorem ofText?_eq_some_iff {t : Text} {n : Numeral} : ofText? t = some n ↔ Spelling t n :=
  ⟨spelling_of_ofText?, ofText?_of_spelling⟩

end Numeral

private theorem fractionPart_iff {f : Text} :
    Grammar.FractionPart f ↔ ∃ ds, Numeral.FractionSpelling f ds := by
  constructor
  · rintro (_ | ⟨ds, digits⟩)
    · exact ⟨[], .absent⟩
    · exact ⟨ds, .present ds digits⟩
  · rintro ⟨ds, _ | ⟨_, digits⟩⟩
    · exact .absent
    · exact .present ds digits

private theorem exponentPart_iff {e : Text} :
    Grammar.ExponentPart e ↔ ∃ negative ds, Numeral.ExponentSpelling e negative ds := by
  constructor
  · rintro (_ | ⟨mark, sign, ds, isMark, isSign, digits⟩)
    · exact ⟨false, [], .absent⟩
    · exact ⟨_, ds, .present mark sign ds isMark isSign digits⟩
  · rintro ⟨negative, ds, _ | ⟨mark, sign, _, isMark, isSign, digits⟩⟩
    · exact .absent
    · exact .present mark sign ds isMark isSign digits

/-- Number text is what the grammar calls a number. -/
theorem isNumeral_iff {t : Text} : isNumeral t = true ↔ Grammar.Number t := by
  rw [isNumeral, Option.isSome_iff_exists]
  constructor
  · rintro ⟨n, hn⟩
    obtain ⟨hint, f, e, hf, he, rfl⟩ := Numeral.spelling_of_ofText? hn
    have hfraction := fractionPart_iff.mpr ⟨_, hf⟩
    have hexponent := exponentPart_iff.mpr ⟨_, _, he⟩
    cases n.negative with
    | false => exact .mk [] _ f e (.inl rfl) hint hfraction hexponent
    | true => exact .mk ['-'] _ f e (.inr rfl) hint hfraction hexponent
  · rintro ⟨sign, i, f, e, hsign, hint, hfraction, hexponent⟩
    obtain ⟨fraction, hf⟩ := fractionPart_iff.mp hfraction
    obtain ⟨negative, ds, he⟩ := exponentPart_iff.mp hexponent
    rcases hsign with rfl | rfl
    · exact ⟨⟨false, i, fraction, negative, ds⟩,
        Numeral.ofText?_of_spelling ⟨hint, f, e, hf, he, rfl⟩⟩
    · exact ⟨⟨true, i, fraction, negative, ds⟩,
        Numeral.ofText?_of_spelling ⟨hint, f, e, hf, he, rfl⟩⟩

end CanonJson
