import CanonJson.Proofs.Syntax.Soundness
import CanonJson.Proofs.Text.Surrogate
import CanonJson.Syntax.Source
/-!
# What the reader accepts

The reader of documents accepts exactly the documents of the grammar that are no deeper than its limit,
and returns the tree they denote. Since the reader is a function, a text denotes at most one tree.
-/

namespace CanonJson.Syntax

open Grammar

/-! ### The byte order mark -/

theorem exists_mark (t : Text) :
    ∃ mark, (mark = [] ∨ mark = [CodePoint.ofNat 0xFEFF]) ∧ t = mark ++ skipMark t := by
  cases t with
  | nil => exact ⟨[], .inl rfl, rfl⟩
  | cons c rest =>
    by_cases hc : c.val = 0xFEFF
    · have hmark : c = CodePoint.ofNat 0xFEFF := CodePoint.eq_of_val_eq (by rw [hc]; rfl)
      exact ⟨[c], .inr (by rw [hmark]), by rw [skipMark, if_pos hc]; rfl⟩
    · exact ⟨[], .inl rfl, by rw [skipMark, if_neg hc]; rfl⟩

theorem skipMark_append {w body rest : Text} {v : Value} (hw : Space w) (hbody : Denotes body v) :
    skipMark (w ++ body ++ rest) = w ++ body ++ rest := by
  -- Neither white space nor a value begins with the mark.
  obtain ⟨c, t, rfl, -, -, hc⟩ := denotes_exists_cons hbody
  cases w with
  | nil => rw [List.nil_append, List.cons_append, skipMark, if_neg hc]
  | cons d w =>
    have hd : d.val ≠ 0xFEFF := by
      rcases hw d (by simp) with rfl | rfl | rfl | rfl <;> decide
    rw [List.cons_append, List.cons_append, skipMark, if_neg hd]

/-! ### Documents -/

theorem document_of_readDocument {limit : Nat} {t : Text} {v : Value}
    (h : readDocument limit t = .ok v) : Document t v ∧ v.depth ≤ limit := by
  unfold readDocument at h
  split at h
  · simp at h
  · rename_i v' rest hread
    split at h
    · rename_i hrest
      obtain rfl := Except.ok.inj h
      obtain ⟨w', hw', rfl⟩ := exists_space_of_skipSpace hrest
      obtain ⟨mark, hmark, ht⟩ := exists_mark t
      have hfits : Fits limit [] := trivial
      obtain ⟨w, body, u, c, hw, hbody, ⟨rfl, rfl⟩, hinput⟩ := denotes_of_readValue hread
      refine ⟨⟨mark, w, body, w', hmark, hw, hbody, hw', ?_⟩, depth_le_of_readValue hfits hread⟩
      rw [ht, hinput]
      simp only [List.append_assoc, List.append_nil]
    · simp at h

theorem readDocument_of_document {limit : Nat} {t : Text} {v : Value} (h : Document t v)
    (hdepth : v.depth ≤ limit) : readDocument limit t = .ok v := by
  obtain ⟨mark, w, body, w', hmark, hw, hbody, hw', rfl⟩ := h
  have hskip : skipMark (mark ++ w ++ body ++ w') = w ++ body ++ w' := by
    rcases hmark with rfl | rfl
    · rw [List.nil_append, skipMark_append hw hbody]
    · have hval : (CodePoint.ofNat 0xFEFF).val = 0xFEFF := rfl
      simp only [List.cons_append, List.nil_append, skipMark, hval, ↓reduceIte]
  have hend : w'.Halts inNumber := by
    simpa using halts_space_append hw' (Text.halts_nil)
  unfold readDocument
  rw [hskip, readsValue_of_denotes hbody limit limit [] w w' hw hdepth hend, resume_nil]
  simp only [skipSpace_eq_nil hw']

theorem readDocument_eq_ok_iff {limit : Nat} {t : Text} {v : Value} :
    readDocument limit t = .ok v ↔ Document t v ∧ v.depth ≤ limit :=
  ⟨document_of_readDocument, fun h => readDocument_of_document h.1 h.2⟩

theorem document_unique {t : Text} {v u : Value} (hv : Document t v) (hu : Document t u) :
    v = u := by
  have hreadv := readDocument_of_document hv (Nat.le_max_left v.depth u.depth)
  have hreadu := readDocument_of_document hu (Nat.le_max_right v.depth u.depth)
  exact Except.ok.inj (hreadv.symm.trans hreadu)

theorem parseText_eq_ok_iff {limit : Nat} {t : Text} {v : Value} :
    parseText limit t = .ok v ↔ Document t v ∧ v.depth ≤ limit := by
  rw [← readDocument_eq_ok_iff, parseText]
  cases readDocument limit t <;> simp

end CanonJson.Syntax

namespace CanonJson

theorem Source.decode_text {t : Text} (h : t.SurrogateFree) : (Source.text t).decode = .ok t := by
  rw [Source.decode, Text.findIdx?_isSurrogate h]

theorem parse_eq_ok_iff {limit : Nat} {source : Source} {v : Value} :
    parse limit source = .ok v
      ↔ ∃ t, source.decode = .ok t ∧ Grammar.Document t v ∧ v.depth ≤ limit := by
  unfold parse
  rw [bind_eq_ok_iff]
  constructor
  · rintro ⟨t, hdecode, h⟩
    refine ⟨t, hdecode, Syntax.parseText_eq_ok_iff.mp ?_⟩
    split at h
    · rename_i u hu
      rw [hu]
      exact congrArg Except.ok (Except.ok.inj h)
    · simp [throw, throwThe, MonadExceptOf.throw] at h
  · rintro ⟨t, hdecode, h⟩
    refine ⟨t, hdecode, ?_⟩
    rw [Syntax.parseText_eq_ok_iff.mpr h]
    rfl

/-- Reading a text succeeds exactly on the documents of the grammar within the limit, with the one tree
that the text denotes. -/
theorem parse_text_iff_document (t : Text) (ht : t.SurrogateFree) (limit : Nat) :
    (∀ v, parse limit (.text t) = .ok v ↔ Grammar.Document t v ∧ v.depth ≤ limit)
      ∧ ∀ v u, Grammar.Document t v → Grammar.Document t u → v = u := by
  refine ⟨?_, fun v u => Syntax.document_unique⟩
  intro v
  rw [parse_eq_ok_iff, Source.decode_text ht]
  constructor
  · rintro ⟨t', hdecode, h⟩
    obtain rfl := Except.ok.inj hdecode
    exact h
  · intro h
    exact ⟨t, rfl, h⟩

/-- A marked document with repeated keys, an escaped pair of surrogates and numbers in odd spellings. -/
theorem parse_text_iff_document_marked :
    let t : Text := CodePoint.ofNat 0xFEFF :: Text.ofString "\x7b\"a\" :[-0.50E+07 , \"\\uD83d\\uDe00\"],\"a\":null\x7d\r"
    t.SurrogateFree ∧ ∀ v, parse 2 (.text t) = .ok v ↔ Grammar.Document t v ∧ v.depth ≤ 2 :=
  ⟨by decide, (parse_text_iff_document _ (by decide) 2).1⟩

end CanonJson
