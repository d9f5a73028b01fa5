import CanonJson.Proofs.Number.Rational
import CanonJson.Proofs.Syntax.Parsed
/-!
# Two readers of number text

The reader of documents takes the longest run of number characters and matches it against a pattern; the parts of a
number are taken from its text by a reader of their own. Both accept the numbers of the grammar: a document that is
a number has parts, and a text with parts is a document. White space and one byte order mark are all that may stand
around the number of a document.
-/

namespace CanonJson

open Grammar (Number Space)
open Syntax (Pattern)

variable {t u : Text} {limit : Nat}

theorem NumberParts.exists_ofText?_iff : (∃ p, NumberParts.ofText? t = some p) ↔ Number t := by
  constructor
  · rintro ⟨p, hp⟩
    obtain ⟨n, hn, -⟩ := Option.map_eq_some_iff.mp hp
    exact isNumeral_iff.mp (Option.isSome_iff_exists.mpr ⟨n, hn⟩)
  · intro ht
    obtain ⟨p, hp, -⟩ := NumberParts.exists_reduced_of_number ht
    exact ⟨p, hp⟩

theorem Source.decode_text_iff : (Source.text t).decode = .ok u ↔ t.SurrogateFree ∧ u = t := by
  constructor
  · intro h
    have hu := Source.surrogateFree_of_decode h
    rw [Source.decode] at h
    split at h
    · obtain rfl := Except.ok.inj h
      exact ⟨hu, rfl⟩
    · cases h
  · rintro ⟨ht, rfl⟩
    exact Source.decode_text ht

/-- A document denotes a number exactly if the number stands in it with white space around it, behind a mark at most. -/
theorem document_number_iff :
    Grammar.Document t (.number u) ↔ Number u ∧ ∃ mark w w', (mark = [] ∨ mark = [CodePoint.ofNat 0xFEFF])
      ∧ Space w ∧ Space w' ∧ t = mark ++ w ++ u ++ w' := by
  constructor
  · rintro ⟨mark, w, body, w', hmark, hw, hbody, hw', rfl⟩
    cases hbody with
    | number _ hu => exact ⟨hu, mark, w, w', hmark, hw, hw', rfl⟩
  · rintro ⟨hu, mark, w, w', hmark, hw, hw', rfl⟩
    exact ⟨mark, w, u, w', hmark, hw, .number u hu, hw', rfl⟩

theorem surrogateFree_of_document_number (h : Grammar.Document t (.number u)) : t.SurrogateFree := by
  obtain ⟨hu, mark, w, w', hmark, hw, hw', rfl⟩ := document_number_iff.mp h
  have hfree : Text.SurrogateFree mark := by
    rcases hmark with rfl | rfl <;> decide
  simp only [Text.surrogateFree_append]
  exact ⟨⟨⟨hfree, Grammar.surrogateFree_space hw⟩, Grammar.surrogateFree_number hu⟩, Grammar.surrogateFree_space hw'⟩

theorem parse_number_iff : parse limit (.text t) = .ok (.number u) ↔ Grammar.Document t (.number u) := by
  rw [parse_eq_ok_iff]
  constructor
  · rintro ⟨t', hdecode, hdocument, -⟩
    obtain ⟨-, rfl⟩ := Source.decode_text_iff.mp hdecode
    exact hdocument
  · intro h
    exact ⟨t, Source.decode_text (surrogateFree_of_document_number h), h, Nat.zero_le limit⟩

/-- A text has the parts of a number exactly if it is read as the document of that number and of nothing else, and exactly
if it matches the pattern that tokens are matched against, whatever the limit of nesting. And a text is read as some
number exactly if that number matches the pattern and stands in the text with nothing but white space and at most one
byte order mark around it. -/
theorem parts_iff_parse_number (t : Text) (limit : Nat) :
    ((∃ p, NumberParts.ofText? t = some p) ↔ parse limit (.text t) = .ok (.number t))
    ∧ ((∃ p, NumberParts.ofText? t = some p) ↔ Pattern.number.fullMatches t = true)
    ∧ ∀ u, parse limit (.text t) = .ok (.number u) ↔
      Pattern.number.fullMatches u = true ∧ ∃ mark w w', (mark = [] ∨ mark = [CodePoint.ofNat 0xFEFF])
        ∧ Space w ∧ Space w' ∧ t = mark ++ w ++ u ++ w' := by
  have hpattern : ∀ {u}, Pattern.number.fullMatches u = true ↔ Number u :=
    Pattern.fullMatches_iff.trans Pattern.matches_number
  refine ⟨?_, NumberParts.exists_ofText?_iff.trans hpattern.symm, fun u => ?_⟩
  · rw [NumberParts.exists_ofText?_iff, parse_number_iff, document_number_iff]
    constructor
    · intro ht
      exact ⟨ht, [], [], [], .inl rfl, Syntax.space_nil, Syntax.space_nil, (List.append_nil t).symm⟩
    · exact fun h => h.1
  · rw [parse_number_iff, document_number_iff, hpattern]

end CanonJson
