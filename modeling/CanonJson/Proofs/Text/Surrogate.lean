import CanonJson.Proofs.Text.Run
/-!
# Texts without surrogates

A text is free of surrogates if its parts are, and no character is a surrogate.
-/

namespace CanonJson

namespace CodePoint

theorem isSurrogate_eq_false_iff {c : CodePoint} :
    c.isSurrogate = false ↔ c.val < 0xD800 ∨ 0xDFFF < c.val := by
  simp only [isSurrogate, Bool.and_eq_false_iff, decide_eq_false_iff_not]
  omega

theorem isSurrogate_ofNat {n : Nat} (h : n < 0xD800 ∨ 0xDFFF < n) :
    (ofNat n).isSurrogate = false := by
  rw [isSurrogate_eq_false_iff, ofNat]
  split
  · exact h
  · simp

theorem isSurrogate_ofChar (ch : Char) : (ofChar ch).isSurrogate = false := by
  rw [isSurrogate_eq_false_iff]
  rcases ch.valid with h | h
  · exact .inl h
  · exact .inr h.1

end CodePoint

namespace Text

theorem surrogateFree_nil : SurrogateFree [] :=
  List.forall_mem_nil _

theorem surrogateFree_cons {c : CodePoint} {t : Text} :
    SurrogateFree (c :: t) ↔ c.isSurrogate = false ∧ SurrogateFree t :=
  List.forall_mem_cons

theorem surrogateFree_append {s t : Text} :
    SurrogateFree (s ++ t) ↔ SurrogateFree s ∧ SurrogateFree t :=
  List.forall_mem_append

theorem surrogateFree_ofChars (cs : List Char) : SurrogateFree (ofChars cs) := by
  intro c hc
  obtain ⟨ch, -, rfl⟩ := List.mem_map.mp hc
  exact CodePoint.isSurrogate_ofChar ch

theorem surrogateFree_flatMap {α : Type} {l : List α} {f : α → Text}
    (h : ∀ a ∈ l, SurrogateFree (f a)) : SurrogateFree (l.flatMap f) := by
  intro c hc
  obtain ⟨a, ha, hc⟩ := List.mem_flatMap.mp hc
  exact h a ha c hc

/-- The encoders look for a surrogate and find none. -/
theorem findIdx?_isSurrogate {t : Text} (ht : t.SurrogateFree) :
    t.findIdx? CodePoint.isSurrogate = none := by
  rw [List.findIdx?_eq_none_iff]
  exact ht

end Text

end CanonJson
