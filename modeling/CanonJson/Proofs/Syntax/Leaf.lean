import CanonJson.Proofs.Number.Spelling
import CanonJson.Proofs.Outcome
import CanonJson.Proofs.Syntax.Pattern
import CanonJson.Syntax.Grammar
import CanonJson.Syntax.Scalar
/-!
# Leaves of a document

Each reader of a leaf against the part of the grammar it stands for, in both directions: what it takes
from the front of its input is a derivation of what it returns, and a derivation in front of any text
that cannot prolong it is taken as a whole. Only numbers can be prolonged, so only they say what may
follow.
-/

namespace CanonJson.Syntax

open Grammar

/-! ### White space -/

theorem isSpace_iff {c : CodePoint} :
    isSpace c = true ↔ c = CodePoint.ofChar ' ' ∨ c = CodePoint.ofChar '\t'
    ∨ c = CodePoint.ofChar '\n' ∨ c = CodePoint.ofChar '\r' := by
  simp only [isSpace, Bool.or_eq_true, CodePoint.is_iff, or_assoc]

theorem space_iff {w : Text} : Space w ↔ ∀ c ∈ w, isSpace c = true := by
  simp only [Space, isSpace_iff]

theorem space_nil : Space [] := by
  simp [Space]

theorem space_append {w w' : Text} (h : Space w) (h' : Space w') : Space (w ++ w') := by
  intro c hc
  rcases List.mem_append.mp hc with hc | hc
  · exact h c hc
  · exact h' c hc

theorem skipSpace_append {w rest : Text} (hw : Space w) : skipSpace (w ++ rest) = skipSpace rest :=
  List.dropWhile_append_of_pos (space_iff.mp hw)

theorem skipSpace_of_halts {t : Text} (h : t.Halts isSpace) : skipSpace t = t := by
  cases t with
  | nil => rfl
  | cons c t => exact List.dropWhile_cons_of_neg (by simpa using h)

theorem skipSpace_cons {c : CodePoint} {t : Text} (h : isSpace c = false) :
    skipSpace (c :: t) = c :: t :=
  skipSpace_of_halts (Text.halts_cons.mpr h)

theorem skipSpace_append_cons {w rest : Text} {c : CodePoint} (hw : Space w)
    (hc : isSpace c = false) : skipSpace (w ++ c :: rest) = c :: rest := by
  rw [skipSpace_append hw, skipSpace_cons hc]

theorem skipSpace_eq_nil {w : Text} (hw : Space w) : skipSpace w = [] := by
  have h := @skipSpace_append w [] hw
  rw [List.append_nil] at h
  exact h

theorem halts_skipSpace (input : Text) : (skipSpace input).Halts isSpace :=
  Text.halts_dropWhile isSpace input

theorem skipSpace_idem (input : Text) : skipSpace (skipSpace input) = skipSpace input :=
  skipSpace_of_halts (halts_skipSpace input)

/-- What the reader passes over is white space. -/
theorem exists_space (input : Text) : ∃ w, Space w ∧ input = w ++ skipSpace input := by
  refine ⟨input.takeWhile isSpace, space_iff.mpr ?_, List.takeWhile_append_dropWhile.symm⟩
  intro c hc
  exact List.all_eq_true.mp List.all_takeWhile c hc

theorem exists_space_of_skipSpace {input rest : Text} (h : skipSpace input = rest) :
    ∃ w, Space w ∧ input = w ++ rest :=
  h ▸ exists_space input

/-! ### Strings

One step inside a string either closes it or reads one code point in one of its spellings, so a whole
string is read by induction on the steps.
-/

theorem exists_unitEscape_of_readHex? {input rest : Text} {u : Nat}
    (h : readHex? input = some (u, rest)) :
    ∃ digits, UnitEscape (Text.ofChars ['\\', 'u'] ++ digits) u ∧ input = digits ++ rest := by
  unfold readHex? at h
  split at h
  · rename_i a b c d rest'
    split at h
    · rename_i x y z w ha hb hc hd
      simp only [Option.some.injEq, Prod.mk.injEq] at h
      obtain ⟨rfl, rfl⟩ := h
      refine ⟨[a, b, c, d], ?_, rfl⟩
      rw [show ((x * 16 + y) * 16 + z) * 16 + w = 4096 * x + 256 * y + 16 * z + w by omega]
      exact .mk a b c d x y z w ha hb hc hd
    · simp at h
  · simp at h

theorem readHex?_of_unitEscape {s : Text} {u : Nat} (h : UnitEscape s u) :
    ∃ digits, s = Text.ofChars ['\\', 'u'] ++ digits
      ∧ ∀ rest, readHex? (digits ++ rest) = some (u, rest) := by
  obtain ⟨a, b, c, d, x, y, z, w, ha, hb, hc, hd⟩ := h
  refine ⟨[a, b, c, d], rfl, ?_⟩
  intro rest
  simp only [List.cons_append, List.nil_append, readHex?, ha, hb, hc, hd, Option.some.injEq,
    Prod.mk.injEq,
    and_true]
  omega

theorem isLow_iff {u : Nat} : isLow u = true ↔ 0xDC00 ≤ u ∧ u ≤ 0xDFFF := by
  simp [isLow]

theorem isHigh_iff {u : Nat} : isHigh u = true ↔ 0xD800 ≤ u ∧ u ≤ 0xDBFF := by
  simp [isHigh]

theorem shortEscape?_eq_some_iff {e c : CodePoint} :
    shortEscape? e = some c
      ↔ ∃ letter n, ShortEscape letter n ∧ e = CodePoint.ofChar letter ∧ c = .ofNat n := by
  constructor
  · intro h
    unfold shortEscape? at h
    split at h
    · rename_i he
      obtain rfl := Option.some.inj h
      simp only [Bool.or_eq_true, CodePoint.is_iff] at he
      rcases he with (rfl | rfl) | rfl
      · exact ⟨_, _, .quote, rfl, by decide⟩
      · exact ⟨_, _, .backslash, rfl, by decide⟩
      · exact ⟨_, _, .slash, rfl, by decide⟩
    · split at h
      · exact ⟨_, _, .backspace, CodePoint.is_iff.mp ‹_›, (Option.some.inj h).symm⟩
      · split at h
        · exact ⟨_, _, .formFeed, CodePoint.is_iff.mp ‹_›, (Option.some.inj h).symm⟩
        · split at h
          · exact ⟨_, _, .lineFeed, CodePoint.is_iff.mp ‹_›, (Option.some.inj h).symm⟩
          · split at h
            · exact ⟨_, _, .carriageReturn, CodePoint.is_iff.mp ‹_›, (Option.some.inj h).symm⟩
            · split at h
              · exact ⟨_, _, .tab, CodePoint.is_iff.mp ‹_›, (Option.some.inj h).symm⟩
              · simp at h
  · rintro ⟨letter, n, h, rfl, rfl⟩
    cases h <;> decide

theorem exists_unitEscape_of_readLow {escape input rest : Text} {high : Nat} {c : CodePoint}
    (h : readLow escape high input = .ok (c, rest)) :
    ∃ t low, UnitEscape t low ∧ isLow low = true ∧ input = t ++ rest
      ∧ c = .ofNat (0x10000 + (high - 0xD800) * 0x400 + (low - 0xDC00)) := by
  unfold readLow at h
  split at h
  · rename_i c₁ c₂ digits
    split at h
    · rename_i hmark
      obtain ⟨hc₁, hc₂⟩ := Bool.and_eq_true _ _ ▸ hmark
      split at h
      · simp at h
      · rename_i low rest' hhex
        obtain ⟨digits', hunit, rfl⟩ := exists_unitEscape_of_readHex? hhex
        split at h
        · rename_i hlow
          simp only [Except.ok.injEq, Prod.mk.injEq] at h
          obtain ⟨hc, rfl⟩ := h
          refine ⟨_, low, hunit, hlow, ?_, hc.symm⟩
          rw [CodePoint.is_iff.mp hc₁, CodePoint.is_iff.mp hc₂]
          rfl
        · simp at h
    · simp at h
  · simp at h

/-- The digits read behind `\u` spell a code point, together with a second escape if need be. -/
theorem stringPoint_of_readNumericEscape {escape input rest : Text} {c : CodePoint}
    (h : readNumericEscape escape input = .ok (c, rest)) :
    ∃ t, StringPoint (Text.ofChars ['\\', 'u'] ++ t) c ∧ input = t ++ rest := by
  unfold readNumericEscape at h
  split at h
  · simp at h
  · rename_i u rest' hhex
    obtain ⟨digits, hunit, rfl⟩ := exists_unitEscape_of_readHex? hhex
    split at h
    · simp at h
    · rename_i hlow
      split at h
      · rename_i hhigh
        obtain ⟨t, low, hunit', hislow, hrest, hc⟩ := exists_unitEscape_of_readLow h
        refine ⟨digits ++ t, ?_, by rw [hrest, List.append_assoc]⟩
        rw [hc, ← List.append_assoc, Nat.mul_comm (u - 0xD800) 0x400]
        exact .pair _ _ u low hunit hunit' (isHigh_iff.mp hhigh) (isLow_iff.mp hislow)
      · rename_i hhigh
        simp only [Except.ok.injEq, Prod.mk.injEq] at h
        obtain ⟨rfl, rfl⟩ := h
        refine ⟨digits, .unit _ u hunit ?_, rfl⟩
        rw [isLow_iff] at hlow
        rw [isHigh_iff] at hhigh
        omega

theorem stringStep_close (start rest : Text) :
    stringStep start (CodePoint.ofChar '"' :: rest) = .ok (.close rest) := by
  simp [stringStep]

theorem eq_of_stringStep_close {start input rest : Text}
    (h : stringStep start input = .ok (.close rest)) : input = CodePoint.ofChar '"' :: rest := by
  unfold stringStep at h
  split at h
  · simp at h
  · split at h
    · rename_i hquote
      simp only [Except.ok.injEq, StringStep.close.injEq] at h
      rw [CodePoint.is_iff.mp hquote, h]
    · split at h
      · split at h
        · simp at h
        · split at h
          · simp at h
          · split at h
            · simp [map_eq_ok_iff] at h
            · simp at h
      · split at h <;> simp at h

theorem stringPoint_of_stringStep {start input rest : Text} {c : CodePoint}
    (h : stringStep start input = .ok (.point c rest)) :
    ∃ s, StringPoint s c ∧ input = s ++ rest := by
  unfold stringStep at h
  split at h
  · simp at h
  · rename_i d rest'
    split at h
    · simp at h
    · rename_i hquote
      split at h
      · rename_i hbackslash
        obtain rfl := CodePoint.is_iff.mp hbackslash
        split at h
        · simp at h
        · rename_i e rest''
          split at h
          · rename_i c' hshort
            simp only [Except.ok.injEq, StringStep.point.injEq] at h
            obtain ⟨rfl, rfl⟩ := h
            obtain ⟨letter, n, hescape, rfl, rfl⟩ := shortEscape?_eq_some_iff.mp hshort
            exact ⟨_, .short letter n hescape, rfl⟩
          · split at h
            · rename_i hu
              obtain rfl := CodePoint.is_iff.mp hu
              obtain ⟨p, hread, hpoint⟩ := map_eq_ok_iff.mp h
              simp only [StringStep.point.injEq] at hpoint
              obtain ⟨rfl, rfl⟩ := hpoint
              obtain ⟨t, hspelled, rfl⟩ := stringPoint_of_readNumericEscape hread
              exact ⟨_, hspelled, rfl⟩
            · simp at h
      · rename_i hbackslash
        split at h
        · simp at h
        · rename_i hcontrol
          simp only [Except.ok.injEq, StringStep.point.injEq] at h
          obtain ⟨rfl, rfl⟩ := h
          rw [CodePoint.is_iff] at hquote hbackslash
          exact ⟨[d], .plain d (Nat.le_of_not_lt hcontrol) hquote hbackslash, rfl⟩

theorem readNumericEscape_of_unit {s : Text} {u : Nat} (h : UnitEscape s u)
    (hscalar : u < 0xD800 ∨ 0xDFFF < u) :
    ∃ digits, s = Text.ofChars ['\\', 'u'] ++ digits
      ∧ ∀ escape rest, readNumericEscape escape (digits ++ rest) = .ok (.ofNat u, rest) := by
  obtain ⟨digits, rfl, hread⟩ := readHex?_of_unitEscape h
  refine ⟨digits, rfl, ?_⟩
  intro escape rest
  have hlow : ¬ isLow u = true := by rw [isLow_iff]; omega
  have hhigh : ¬ isHigh u = true := by rw [isHigh_iff]; omega
  rw [readNumericEscape, hread]
  simp only [hlow, hhigh, Bool.false_eq_true, ↓reduceIte]

theorem readNumericEscape_of_pair {s t : Text} {high low : Nat} (first : UnitEscape s high)
    (second : UnitEscape t low) (hhigh : 0xD800 ≤ high ∧ high ≤ 0xDBFF)
    (hlow : 0xDC00 ≤ low ∧ low ≤ 0xDFFF) :
    ∃ digits, s ++ t = Text.ofChars ['\\', 'u'] ++ digits ∧ ∀ escape rest,
      readNumericEscape escape (digits ++ rest)
        = .ok (.ofNat (0x10000 + 0x400 * (high - 0xD800) + (low - 0xDC00)), rest) := by
  obtain ⟨digits, rfl, hread⟩ := readHex?_of_unitEscape first
  obtain ⟨digits', rfl, hread'⟩ := readHex?_of_unitEscape second
  refine ⟨digits ++ (Text.ofChars ['\\', 'u'] ++ digits'), by rw [List.append_assoc], ?_⟩
  intro escape rest
  have hnotLow : ¬ isLow high = true := by rw [isLow_iff]; omega
  have hsecond : readLow escape high (Text.ofChars ['\\', 'u'] ++ digits' ++ rest)
      = .ok (.ofNat (0x10000 + (high - 0xD800) * 0x400 + (low - 0xDC00)), rest) := by
    simp [Text.ofChars, readLow, hread', isLow_iff.mpr hlow]
  rw [readNumericEscape, List.append_assoc, hread]
  simp only [hnotLow, isHigh_iff.mpr hhigh, Bool.false_eq_true, ↓reduceIte, hsecond]
  rw [Nat.mul_comm (high - 0xD800) 0x400]

theorem stringStep_of_readNumericEscape {start digits rest : Text} {c : CodePoint}
    (h : ∀ escape, readNumericEscape escape (digits ++ rest) = .ok (c, rest)) :
    stringStep start (Text.ofChars ['\\', 'u'] ++ digits ++ rest) = .ok (.point c rest) := by
  have hu : shortEscape? (CodePoint.ofChar 'u') = none := by decide
  have hquote : (CodePoint.ofChar '\\').is '"' = false := by decide
  simp [Text.ofChars, stringStep, hu, hquote, h, Except.map]

theorem stringStep_of_stringPoint {s : Text} {c : CodePoint} (h : StringPoint s c)
    (start rest : Text) : stringStep start (s ++ rest) = .ok (.point c rest) := by
  cases h with
  | plain c notControl notQuote notBackslash =>
    have hcontrol : ¬ c.val < 0x20 := Nat.not_lt.mpr notControl
    simp [stringStep, CodePoint.is_eq_false_iff.mpr notQuote,
      CodePoint.is_eq_false_iff.mpr notBackslash,
      hcontrol]
  | short letter n escape =>
    have hshort := shortEscape?_eq_some_iff.mpr ⟨letter, n, escape, rfl, rfl⟩
    have hquote : (CodePoint.ofChar '\\').is '"' = false := by decide
    simp [Text.ofChars, stringStep, hquote, hshort]
  | unit s u escape scalar =>
    obtain ⟨digits, rfl, hread⟩ := readNumericEscape_of_unit escape scalar
    exact stringStep_of_readNumericEscape fun escape => hread escape rest
  | pair s t high low first second isHigh isLow =>
    obtain ⟨digits, heq, hread⟩ := readNumericEscape_of_pair first second isHigh isLow
    rw [heq]
    exact stringStep_of_readNumericEscape fun escape => hread escape rest

theorem stringBody_of_readStringFrom {start input acc s rest : Text}
    (h : readStringFrom start input acc = .ok (s, rest)) :
    ∃ body s', StringBody body s' ∧ s = acc.reverse ++ s'
      ∧ input = body ++ CodePoint.ofChar '"' :: rest := by
  fun_induction readStringFrom start input acc with
  | case1 => simp at h
  | case2 input acc rest' hstep =>
    simp only [Except.ok.injEq, Prod.mk.injEq] at h
    obtain ⟨rfl, rfl⟩ := h
    exact ⟨[], [], .nil, by rw [List.append_nil], eq_of_stringStep_close hstep⟩
  | case3 input acc c rest' hstep ih =>
    obtain ⟨body, s', hbody, rfl, rfl⟩ := ih h
    obtain ⟨t, hpoint, rfl⟩ := stringPoint_of_stringStep hstep
    refine ⟨t ++ body, c :: s', .cons t body c s' hpoint hbody, ?_, by rw [List.append_assoc]⟩
    rw [List.reverse_cons, List.append_assoc, List.singleton_append]

theorem readStringFrom_of_stringBody {body s : Text} (h : StringBody body s)
    (start acc rest : Text) :
    readStringFrom start (body ++ CodePoint.ofChar '"' :: rest) acc
      = .ok (acc.reverse ++ s, rest) := by
  induction h generalizing acc with
  | nil =>
    unfold readStringFrom
    split <;> simp_all [stringStep_close]
  | cons t body c s first more ih =>
    have hstep := stringStep_of_stringPoint first start (body ++ CodePoint.ofChar '"' :: rest)
    rw [← List.append_assoc] at hstep
    unfold readStringFrom
    split <;> simp_all

/-- Reading a string finds exactly the text between its quotes. -/
theorem readString_eq_ok_iff {start input s rest : Text} :
    readString start input = .ok (s, rest)
      ↔ ∃ body, StringBody body s ∧ input = body ++ CodePoint.ofChar '"' :: rest := by
  constructor
  · intro h
    obtain ⟨body, s', hbody, rfl, rfl⟩ := stringBody_of_readStringFrom h
    exact ⟨body, hbody, rfl⟩
  · rintro ⟨body, hbody, rfl⟩
    exact readStringFrom_of_stringBody hbody start [] rest

/-! ### Numbers -/

theorem startsNumber_bounds {c : CodePoint} (h : startsNumber c = true) :
    0x2B ≤ c.val ∧ c.val ≤ 0x39 := by
  simp only [startsNumber, CodePoint.isDigit, CodePoint.is, Bool.or_eq_true, Bool.and_eq_true,
    decide_eq_true_eq, beq_iff_eq] at h
  rcases h with ((h | h) | h) | h
  · omega
  · exact h ▸ by decide
  · exact h ▸ by decide
  · exact h ▸ by decide

theorem startsNumber_of_isDigit {c : CodePoint} (h : c.isDigit = true) : startsNumber c = true := by
  simp [startsNumber, h]

theorem inNumber_of_startsNumber {c : CodePoint} (h : startsNumber c = true) :
    inNumber c = true := by
  simp [inNumber, h]

theorem inNumber_of_isDigit {c : CodePoint} (h : c.isDigit = true) : inNumber c = true :=
  inNumber_of_startsNumber (startsNumber_of_isDigit h)

private theorem inNumber_of_mem_ofChars {cs : List Char}
    (h : cs.all (fun ch => inNumber (CodePoint.ofChar ch)) = true) :
    ∀ c ∈ Text.ofChars cs, inNumber c = true := by
  intro c hc
  obtain ⟨ch, hch, rfl⟩ := List.mem_map.mp hc
  exact List.all_eq_true.mp h ch hch

/-- A number is made of nothing but the characters of number tokens. -/
theorem inNumber_of_mem_number {t : Text} (h : Number t) : ∀ c ∈ t, inNumber c = true := by
  obtain ⟨sign, i, f, e, isSign, integer, fraction, exponent⟩ := h
  have hsign : ∀ c ∈ Text.ofChars sign, inNumber c = true := by
    rcases isSign with rfl | rfl <;> exact inNumber_of_mem_ofChars (by decide)
  have hinteger : ∀ c ∈ i, inNumber c = true := fun c hc =>
    inNumber_of_isDigit ((Numeral.integerPart_iff.mp integer).1 c hc)
  have hfraction : ∀ c ∈ f, inNumber c = true := by
    cases fraction with
    | absent => simp
    | present ds digits =>
      intro c hc
      rcases List.mem_cons.mp hc with rfl | hc
      · decide
      · exact inNumber_of_isDigit (digits.2 c hc)
  have hexponent : ∀ c ∈ e, inNumber c = true := by
    cases exponent with
    | absent => simp
    | present mark sign ds isMark isSign digits =>
      intro c hc
      rcases List.mem_append.mp hc with hc | hc
      · rcases List.mem_cons.mp hc with rfl | hc
        · rcases isMark with rfl | rfl <;> decide
        · have hsign' : ∀ c ∈ Text.ofChars sign, inNumber c = true := by
            rcases isSign with rfl | rfl | rfl <;> exact inNumber_of_mem_ofChars (by decide)
          exact hsign' c hc
      · exact inNumber_of_isDigit (digits.2 c hc)
  intro c hc
  simp only [List.mem_append] at hc
  rcases hc with ((hc | hc) | hc) | hc
  · exact hsign c hc
  · exact hinteger c hc
  · exact hfraction c hc
  · exact hexponent c hc

theorem exists_cons_of_number {t : Text} (h : Number t) :
    ∃ c t', t = c :: t' ∧ startsNumber c = true := by
  obtain ⟨sign, i, f, e, isSign, integer, -, -⟩ := h
  rcases isSign with rfl | rfl
  · cases integer with
    | zero => exact ⟨CodePoint.ofChar '0', f ++ e, rfl, by decide⟩
    | positive d ds first => exact ⟨d, ds ++ f ++ e, rfl, startsNumber_of_isDigit first⟩
  · exact ⟨CodePoint.ofChar '-', i ++ f ++ e, rfl, by decide⟩

theorem readNumber_of_number {t rest : Text} (h : Number t) (hrest : rest.Halts inNumber) :
    readNumber (t ++ rest) = .ok (.number t, rest) := by
  have hchars := inNumber_of_mem_number h
  rw [readNumber, Text.takeWhile_append_of_halts hchars hrest,
    Text.dropWhile_append_of_halts hchars hrest,
    if_pos (Pattern.fullMatches_iff.mpr (Pattern.matches_number.mpr h))]

theorem number_of_readNumber {input rest : Text} {v : Value}
    (h : readNumber input = .ok (v, rest)) : ∃ t, Number t ∧ v = .number t ∧ input = t ++ rest := by
  simp only [readNumber] at h
  split at h
  · rename_i hmatches
    simp only [Except.ok.injEq, Prod.mk.injEq] at h
    obtain ⟨rfl, rfl⟩ := h
    exact ⟨_, Pattern.matches_number.mp (Pattern.fullMatches_iff.mp hmatches), rfl, List.takeWhile_append_dropWhile.symm⟩
  · simp at h

/-! ### Literals and scalars -/

theorem denotes_of_mem_literals {word : List Char} {v : Value} (h : (word, v) ∈ literals) :
    Denotes (Text.ofChars word) v := by
  simp only [literals, List.mem_cons, Prod.mk.injEq, List.not_mem_nil, or_false] at h
  rcases h with ⟨rfl, rfl⟩ | ⟨rfl, rfl⟩ | ⟨rfl, rfl⟩
  · exact .true
  · exact .false
  · exact .null

theorem literal_of_readLiteral {input rest : Text} {v : Value}
    (h : readLiteral input = .ok (v, rest)) :
    ∃ word, (word, v) ∈ literals ∧ input = Text.ofChars word ++ rest := by
  unfold readLiteral at h
  split at h
  · rename_i word v' hfind
    simp only [Except.ok.injEq, Prod.mk.injEq] at h
    obtain ⟨rfl, rfl⟩ := h
    refine ⟨word, List.mem_of_find?_eq_some hfind, ?_⟩
    have hprefix := List.find?_some hfind
    simp only [Text.startsWith, List.isPrefixOf_iff_prefix] at hprefix
    obtain ⟨rest, rfl⟩ := hprefix
    simp [Text.ofChars]
  · split at h
    · simp at h
    · simp only at h
      split at h <;> simp at h

theorem readLiteral_of_mem_literals {word : List Char} {v : Value} (h : (word, v) ∈ literals)
    (rest : Text) : readLiteral (Text.ofChars word ++ rest) = .ok (v, rest) := by
  -- The literals differ in their first letters, so the search stops at the one that stands there.
  have hfind : literals.find? (fun l => (Text.ofChars word ++ rest).startsWith l.1) = some (word, v) := by
    simp only [literals, List.mem_cons, Prod.mk.injEq, List.not_mem_nil, or_false] at h
    rcases h with ⟨rfl, rfl⟩ | ⟨rfl, rfl⟩ | ⟨rfl, rfl⟩ <;> rfl
  unfold readLiteral
  rw [hfind]
  simp [Text.ofChars]

theorem exists_cons_of_mem_literals {word : List Char} {v : Value} (h : (word, v) ∈ literals) :
    ∃ ch word', word = ch :: word' ∧ (ch = 't' ∨ ch = 'f' ∨ ch = 'n') := by
  simp only [literals, List.mem_cons, Prod.mk.injEq, List.not_mem_nil, or_false] at h
  rcases h with ⟨rfl, rfl⟩ | ⟨rfl, rfl⟩ | ⟨rfl, rfl⟩
  · exact ⟨_, _, rfl, .inl rfl⟩
  · exact ⟨_, _, rfl, .inr (.inl rfl)⟩
  · exact ⟨_, _, rfl, .inr (.inr rfl)⟩

/-- A value without parts, by its text. -/
inductive Leaf : Text → Value → Prop where
  | literal (word : List Char) (v : Value) (h : (word, v) ∈ literals) : Leaf (Text.ofChars word) v
  | number (t : Text) (h : Number t) : Leaf t (.number t)
  | string (t s : Text) (h : Str t s) : Leaf t (.string s)

theorem Leaf.denotes {t : Text} {v : Value} (h : Leaf t v) : Denotes t v := by
  cases h with
  | literal word v h => exact denotes_of_mem_literals h
  | number t h => exact .number t h
  | string t s h => exact .string t s h

theorem Leaf.depth {t : Text} {v : Value} (h : Leaf t v) : v.depth = 0 := by
  cases h with
  | literal word v h =>
    simp only [literals, List.mem_cons, Prod.mk.injEq, List.not_mem_nil, or_false] at h
    rcases h with ⟨-, rfl⟩ | ⟨-, rfl⟩ | ⟨-, rfl⟩ <;> rfl
  | number t h => rfl
  | string t s h => rfl

theorem leaf_of_readScalar {input rest : Text} {v : Value} (h : readScalar input = .ok (v, rest)) :
    ∃ t, Leaf t v ∧ input = t ++ rest := by
  unfold readScalar at h
  split at h
  · simp at h
  · rename_i c rest'
    split at h
    · rename_i hquote
      obtain ⟨p, hread, hp⟩ := map_eq_ok_iff.mp h
      simp only [Prod.mk.injEq] at hp
      obtain ⟨rfl, rfl⟩ := hp
      obtain ⟨body, hbody, rfl⟩ := readString_eq_ok_iff.mp hread
      refine ⟨_, .string _ p.1 ⟨body, hbody, rfl⟩, ?_⟩
      rw [CodePoint.is_iff.mp hquote, List.append_assoc]
      rfl
    · split at h
      · obtain ⟨t, hnumber, rfl, hinput⟩ := number_of_readNumber h
        exact ⟨t, .number t hnumber, hinput⟩
      · obtain ⟨word, hword, hinput⟩ := literal_of_readLiteral h
        exact ⟨_, .literal word v hword, hinput⟩

private theorem is_eq_false_of_startsNumber {c : CodePoint} {ch : Char} (h : startsNumber c = true)
    (hch : startsNumber (CodePoint.ofChar ch) = false) : c.is ch = false := by
  rw [CodePoint.is_eq_false_iff]
  rintro rfl
  exact absurd h (by rw [hch]; decide)

theorem readScalar_of_leaf {t rest : Text} {v : Value} (h : Leaf t v)
    (hrest : rest.Halts inNumber) : readScalar (t ++ rest) = .ok (v, rest) := by
  cases h with
  | literal word v h =>
    have hread := readLiteral_of_mem_literals h rest
    obtain ⟨ch, word, rfl, hch⟩ := exists_cons_of_mem_literals h
    have hquote : (CodePoint.ofChar ch).is '"' = false := by
      rcases hch with rfl | rfl | rfl <;> decide
    have hnumber : startsNumber (CodePoint.ofChar ch) = false := by
      rcases hch with rfl | rfl | rfl <;> decide
    simp only [Text.ofChars, List.map_cons, List.cons_append] at hread ⊢
    simp only [readScalar, hquote, hnumber, Bool.false_eq_true, ↓reduceIte, hread]
  | number t h =>
    have hread := readNumber_of_number h hrest
    obtain ⟨c, t, rfl, hstart⟩ := exists_cons_of_number h
    have hquote : c.is '"' = false := is_eq_false_of_startsNumber hstart (by decide)
    simp only [List.cons_append] at hread ⊢
    simp only [readScalar, hquote, hstart, Bool.false_eq_true, ↓reduceIte, hread]
  | string t s h =>
    obtain ⟨body, hbody, rfl⟩ := h
    have hread : ∀ start, readString start (body ++ CodePoint.ofChar '"' :: rest) = .ok (s, rest) :=
      fun start => readString_eq_ok_iff.mpr ⟨body, hbody, rfl⟩
    simp [readScalar, hread, Except.map]

/-- The first character of a leaf is neither white space nor a bracket. -/
theorem Leaf.exists_cons {t : Text} {v : Value} (h : Leaf t v) :
    ∃ c t', t = c :: t' ∧ isSpace c = false ∧ c.is '[' = false ∧ c.is '\x7b' = false ∧ c.is ']' = false
      ∧ c.val ≠ 0xFEFF := by
  cases h with
  | literal word v h =>
    obtain ⟨ch, word, rfl, hch⟩ := exists_cons_of_mem_literals h
    refine ⟨CodePoint.ofChar ch, Text.ofChars word, rfl, ?_⟩
    rcases hch with rfl | rfl | rfl <;> decide
  | number t h =>
    obtain ⟨c, t, rfl, hstart⟩ := exists_cons_of_number h
    have hbounds := startsNumber_bounds hstart
    have hspace : isSpace c = false := by
      rw [← Bool.not_eq_true, isSpace_iff]
      rintro (rfl | rfl | rfl | rfl) <;> exact absurd hstart (by decide)
    exact ⟨c, t, rfl, hspace, is_eq_false_of_startsNumber hstart (by decide),
      is_eq_false_of_startsNumber hstart (by decide), is_eq_false_of_startsNumber hstart (by decide), by omega⟩
  | string t s h =>
    obtain ⟨body, -, rfl⟩ := h
    exact ⟨_, _, rfl, by decide, by decide, by decide, by decide, by decide⟩

end CanonJson.Syntax
