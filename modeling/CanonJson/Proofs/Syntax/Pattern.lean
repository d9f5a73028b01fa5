import CanonJson.Proofs.Text.Run
import CanonJson.Syntax.Grammar
import CanonJson.Syntax.Pattern
/-!
# What patterns match

A pattern stands for a set of texts, which `Matches` gives without any matcher. What the matcher leaves behind a
pattern are the ends of its input that stand behind such a text, so it finds a match of the whole text if there is
one. The pattern of numbers stands for the numbers of the grammar.
-/

namespace CanonJson.Syntax.Pattern

open Grammar (Digits IntegerPart FractionPart ExponentPart Number)

/-- The text is one that the pattern stands for. -/
def Matches : Pattern → Text → Prop
  | .one p, t => ∃ c, p c = true ∧ t = [c]
  | .run p, t => ∀ c ∈ t, p c = true
  | .option a, t => t = [] ∨ a.Matches t
  | .either a b, t => a.Matches t ∨ b.Matches t
  | .seq a b, t => ∃ s u, a.Matches s ∧ b.Matches u ∧ t = s ++ u

/-! ### The matcher -/

theorem mem_restsOfRun {p : CodePoint → Bool} {t rest : Text} {tried : List Text} :
    rest ∈ restsOfRun p t tried ↔ rest ∈ tried ∨ ∃ s, (∀ c ∈ s, p c = true) ∧ t = s ++ rest := by
  induction t generalizing tried with
  | nil =>
    rw [restsOfRun, List.mem_cons, or_comm]
    refine or_congr_right ⟨?_, ?_⟩
    · rintro rfl
      exact ⟨[], by simp, rfl⟩
    · rintro ⟨s, -, h⟩
      exact (List.append_eq_nil_iff.mp h.symm).2
  | cons c t ih =>
    rw [restsOfRun]
    split
    · rename_i hc
      rw [ih, List.mem_cons, or_comm (a := rest = c :: t), or_assoc]
      refine or_congr_right ⟨?_, ?_⟩
      · rintro (rfl | ⟨s, hs, rfl⟩)
        · exact ⟨[], by simp, rfl⟩
        · exact ⟨c :: s, List.forall_mem_cons.mpr ⟨hc, hs⟩, rfl⟩
      · rintro ⟨_ | ⟨d, s⟩, hs, h⟩
        · exact .inl h.symm
        · obtain ⟨rfl, rfl⟩ := List.cons.inj h
          exact .inr ⟨s, (List.forall_mem_cons.mp hs).2, rfl⟩
    · rename_i hc
      rw [List.mem_cons, or_comm]
      refine or_congr_right ⟨?_, ?_⟩
      · rintro rfl
        exact ⟨[], by simp, rfl⟩
      · rintro ⟨_ | ⟨d, s⟩, hs, h⟩
        · exact h.symm
        · obtain ⟨rfl, rfl⟩ := List.cons.inj h
          exact absurd (List.forall_mem_cons.mp hs).1 hc

/-- What may be left behind a pattern stands behind a text that the pattern stands for. -/
theorem mem_rests {a : Pattern} {t rest : Text} : rest ∈ a.rests t ↔ ∃ s, a.Matches s ∧ t = s ++ rest := by
  induction a generalizing t rest with
  | one p =>
    cases t with
    | nil =>
      simp only [rests, List.not_mem_nil, false_iff]
      rintro ⟨_, ⟨c, -, rfl⟩, h⟩
      cases h
    | cons c t =>
      rw [rests]
      split
      · rename_i hc
        rw [List.mem_singleton]
        constructor
        · rintro rfl
          exact ⟨[c], ⟨c, hc, rfl⟩, rfl⟩
        · rintro ⟨_, ⟨d, -, rfl⟩, h⟩
          exact (List.cons.inj h).2.symm
      · rename_i hc
        simp only [List.not_mem_nil, false_iff]
        rintro ⟨_, ⟨d, hd, rfl⟩, h⟩
        exact hc ((List.cons.inj h).1 ▸ hd)
  | run p => simp [rests, Matches, mem_restsOfRun]
  | option a ih =>
    rw [rests, List.mem_append, ih, List.mem_singleton]
    constructor
    · rintro (⟨s, hs, rfl⟩ | rfl)
      · exact ⟨s, .inr hs, rfl⟩
      · exact ⟨[], .inl rfl, rfl⟩
    · rintro ⟨s, rfl | hs, rfl⟩
      · exact .inr rfl
      · exact .inl ⟨s, hs, rfl⟩
  | either a b iha ihb =>
    rw [rests, List.mem_append, iha, ihb]
    constructor
    · rintro (⟨s, hs, rfl⟩ | ⟨s, hs, rfl⟩)
      · exact ⟨s, .inl hs, rfl⟩
      · exact ⟨s, .inr hs, rfl⟩
    · rintro ⟨s, hs | hs, rfl⟩
      · exact .inl ⟨s, hs, rfl⟩
      · exact .inr ⟨s, hs, rfl⟩
  | seq a b iha ihb =>
    rw [rests, List.mem_flatMap]
    constructor
    · rintro ⟨between, ha, hb⟩
      obtain ⟨s, hs, rfl⟩ := iha.mp ha
      obtain ⟨u, hu, rfl⟩ := ihb.mp hb
      exact ⟨s ++ u, ⟨s, u, hs, hu, rfl⟩, (List.append_assoc s u rest).symm⟩
    · rintro ⟨_, ⟨s, u, hs, hu, rfl⟩, rfl⟩
      exact ⟨u ++ rest, iha.mpr ⟨s, hs, List.append_assoc s u rest⟩, ihb.mpr ⟨u, hu, rfl⟩⟩

theorem fullMatches_iff {a : Pattern} {t : Text} : a.fullMatches t = true ↔ a.Matches t := by
  have hnil : a.fullMatches t = true ↔ [] ∈ a.rests t := by
    simp [fullMatches, List.any_eq_true]
  rw [hnil, mem_rests]
  constructor
  · rintro ⟨s, hs, rfl⟩
    rwa [List.append_nil]
  · intro h
    exact ⟨t, h, (List.append_nil t).symm⟩

/-! ### Numbers -/

theorem matches_one_is {ch : Char} {t : Text} : (one (·.is ch)).Matches t ↔ t = [CodePoint.ofChar ch] := by
  simp [Matches, CodePoint.is_iff]

theorem matches_digits {t : Text} : digits.Matches t ↔ Digits t := by
  constructor
  · rintro ⟨_, ds, ⟨d, hd, rfl⟩, hds, rfl⟩
    exact ⟨List.cons_ne_nil d ds, List.forall_mem_cons.mpr ⟨hd, hds⟩⟩
  · rintro ⟨hne, ht⟩
    obtain ⟨d, ds, rfl⟩ := List.exists_cons_of_ne_nil hne
    obtain ⟨hd, hds⟩ := List.forall_mem_cons.mp ht
    exact ⟨[d], ds, ⟨d, hd, rfl⟩, hds, rfl⟩

theorem matches_integerPart {t : Text} : integerPart.Matches t ↔ IntegerPart t := by
  constructor
  · rintro (h | ⟨_, ds, ⟨d, hd, rfl⟩, hds, rfl⟩)
    · rw [matches_one_is.mp h]
      exact .zero
    · obtain ⟨hd, hzero⟩ := Bool.and_eq_true_iff.mp hd
      exact .positive d ds hd (CodePoint.is_eq_false_iff.mp (by simpa using hzero)) hds
  · rintro (_ | ⟨d, ds, hd, hzero, hds⟩)
    · exact .inl (matches_one_is.mpr rfl)
    · have hnotZero : (!d.is '0') = true := by
        rw [CodePoint.is_eq_false_iff.mpr hzero]
        rfl
      exact .inr ⟨[d], ds, ⟨d, Bool.and_eq_true_iff.mpr ⟨hd, hnotZero⟩, rfl⟩, hds, rfl⟩

theorem matches_fractionPart {t : Text} : (option fractionPart).Matches t ↔ FractionPart t := by
  constructor
  · rintro (rfl | ⟨s, ds, hs, hds, rfl⟩)
    · exact .absent
    · rw [matches_one_is.mp hs]
      exact .present ds (matches_digits.mp hds)
  · rintro (_ | ⟨ds, hds⟩)
    · exact .inl rfl
    · exact .inr ⟨_, ds, matches_one_is.mpr rfl, matches_digits.mpr hds, rfl⟩

theorem matches_exponentPart {t : Text} : (option exponentPart).Matches t ↔ ExponentPart t := by
  constructor
  · rintro (rfl | ⟨_, _, ⟨mark, hmark, rfl⟩, ⟨sign, ds, hsign, hds, rfl⟩, rfl⟩)
    · exact .absent
    · have hds := matches_digits.mp hds
      obtain ⟨m, hm, rfl⟩ : ∃ m, (m = 'e' ∨ m = 'E') ∧ mark = CodePoint.ofChar m := by
        rcases Bool.or_eq_true_iff.mp hmark with h | h
        · exact ⟨_, .inl rfl, CodePoint.is_iff.mp h⟩
        · exact ⟨_, .inr rfl, CodePoint.is_iff.mp h⟩
      obtain ⟨s, hs, rfl⟩ : ∃ s, (s = [] ∨ s = ['+'] ∨ s = ['-']) ∧ sign = Text.ofChars s := by
        rcases hsign with rfl | ⟨c, hc, rfl⟩
        · exact ⟨[], .inl rfl, rfl⟩
        · rcases Bool.or_eq_true_iff.mp hc with h | h
          · exact ⟨['+'], .inr (.inl rfl), by rw [CodePoint.is_iff.mp h]; rfl⟩
          · exact ⟨['-'], .inr (.inr rfl), by rw [CodePoint.is_iff.mp h]; rfl⟩
      exact .present m s ds hm hs hds
  · rintro (_ | ⟨m, s, ds, hm, hs, hds⟩)
    · exact .inl rfl
    · refine .inr ⟨[CodePoint.ofChar m], Text.ofChars s ++ ds, ⟨_, ?_, rfl⟩, ⟨Text.ofChars s, ds, ?_,
        matches_digits.mpr hds, rfl⟩, rfl⟩
      · rcases hm with rfl | rfl <;> decide
      · rcases hs with rfl | rfl | rfl
        · exact .inl rfl
        · exact .inr ⟨_, by decide, rfl⟩
        · exact .inr ⟨_, by decide, rfl⟩

/-- The pattern of numbers stands for the numbers of the grammar. -/
theorem matches_number {t : Text} : number.Matches t ↔ Number t := by
  constructor
  · rintro ⟨sign, _, hsign, ⟨i, _, hi, ⟨f, e, hf, he, rfl⟩, rfl⟩, rfl⟩
    obtain ⟨s, hs, rfl⟩ : ∃ s, (s = [] ∨ s = ['-']) ∧ sign = Text.ofChars s := by
      rcases hsign with rfl | h
      · exact ⟨[], .inl rfl, rfl⟩
      · exact ⟨['-'], .inr rfl, matches_one_is.mp h⟩
    rw [← List.append_assoc, ← List.append_assoc]
    exact .mk s i f e hs (matches_integerPart.mp hi) (matches_fractionPart.mp hf) (matches_exponentPart.mp he)
  · rintro ⟨s, i, f, e, hs, hi, hf, he⟩
    refine ⟨Text.ofChars s, i ++ (f ++ e), ?_, ⟨i, f ++ e, matches_integerPart.mpr hi, ⟨f, e,
      matches_fractionPart.mpr hf, matches_exponentPart.mpr he, rfl⟩, rfl⟩, by simp only [List.append_assoc]⟩
    rcases hs with rfl | rfl
    · exact .inl rfl
    · exact .inr (matches_one_is.mpr rfl)

end CanonJson.Syntax.Pattern
