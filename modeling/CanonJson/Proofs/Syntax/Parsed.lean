import CanonJson.Proofs.Syntax.Acceptance
import CanonJson.Proofs.Text.Utf8
/-!
# Trees of documents are well formed

A decoded document holds no surrogate, and an escape denotes one only as half of a pair. So the strings
and keys of a tree that was read hold none, and its numbers are numbers of the grammar.
-/

namespace CanonJson

namespace Grammar

/-! ### Leaves -/

theorem surrogateFree_space {w : Text} (hw : Space w) : w.SurrogateFree := by
  intro c hc
  rcases hw c hc with rfl | rfl | rfl | rfl <;> exact CodePoint.isSurrogate_ofChar _

theorem surrogateFree_number {t : Text} (ht : Number t) : t.SurrogateFree := by
  intro c hc
  rw [CodePoint.isSurrogate_eq_false_iff]
  have hin := Syntax.inNumber_of_mem_number ht c hc
  simp only [Syntax.inNumber, Bool.or_eq_true, CodePoint.is_iff] at hin
  rcases hin with (hstart | rfl) | rfl
  · exact .inl (Nat.lt_of_le_of_lt (Syntax.startsNumber_bounds hstart).2 (by decide))
  · decide
  · decide

theorem isSurrogate_of_stringPoint {s : Text} {c : CodePoint} (h : StringPoint s c)
    (hs : s.SurrogateFree) : c.isSurrogate = false := by
  cases h with
  | plain c => exact hs c (by simp)
  | short letter n escape => cases escape <;> decide
  | unit t u escape scalar => exact CodePoint.isSurrogate_ofNat scalar
  | pair s t high low => exact CodePoint.isSurrogate_ofNat (by omega)

theorem surrogateFree_of_stringBody {t s : Text} (h : StringBody t s) (ht : t.SurrogateFree) :
    s.SurrogateFree := by
  induction h with
  | nil => exact Text.surrogateFree_nil
  | cons s t c cs first more ih =>
    obtain ⟨hs, ht⟩ := Text.surrogateFree_append.mp ht
    exact Text.surrogateFree_cons.mpr ⟨isSurrogate_of_stringPoint first hs, ih ht⟩

theorem surrogateFree_of_str {t s : Text} (h : Str t s) (ht : t.SurrogateFree) :
    s.SurrogateFree := by
  obtain ⟨body, hbody, rfl⟩ := h
  exact surrogateFree_of_stringBody hbody fun c hc => ht c (by simp [hc])

/-! ### Trees -/

mutual

theorem wellFormed_of_denotes {t : Text} {v : Value} : Denotes t v → t.SurrogateFree → v.WellFormed
  | .null, _ => trivial
  | .true, _ => trivial
  | .false, _ => trivial
  | .number _ h, _ => isNumeral_iff.mpr h
  | .string _ _ h, ht => surrogateFree_of_str h ht
  | .emptyArray _ _, _ => trivial
  | .array _ _ h, ht => Value.wellFormed_array.mpr (wellFormed_of_items h fun c hc => ht c (by simp [hc]))
  | .emptyObject _ _, _ => trivial
  | .object _ _ h, ht => Value.wellFormed_object.mpr (wellFormed_of_members h fun c hc => ht c (by simp [hc]))

theorem wellFormed_of_items {t : Text} {vs : List Value} :
    Items t vs → t.SurrogateFree → ∀ v ∈ vs, v.WellFormed
  | .one _ _ _ _ _ item _, ht => by
    have hitem := wellFormed_of_denotes item fun c hc => ht c (by simp [hc])
    simpa using hitem
  | .cons _ _ _ _ _ _ _ item _ more, ht => by
    have hitem := wellFormed_of_denotes item fun c hc => ht c (by simp [hc])
    have hmore := wellFormed_of_items more fun c hc => ht c (by simp [hc])
    exact List.forall_mem_cons.mpr ⟨hitem, hmore⟩

theorem wellFormed_of_members {t : Text} {ms : List (Text × Value)} :
    Members t ms → t.SurrogateFree → ∀ m ∈ ms, m.1.SurrogateFree ∧ m.2.WellFormed
  | .one _ _ _ member, ht => by
    have hmember := wellFormed_of_member member ht
    simpa using hmember
  | .cons _ _ _ _ _ member more, ht => by
    have hmember := wellFormed_of_member member fun c hc => ht c (by simp [hc])
    have hmore := wellFormed_of_members more fun c hc => ht c (by simp [hc])
    exact List.forall_mem_cons.mpr ⟨hmember, hmore⟩

theorem wellFormed_of_member {t k : Text} {v : Value} :
    Member t k v → t.SurrogateFree → k.SurrogateFree ∧ v.WellFormed
  | .mk _ _ _ _ _ _ _ _ _ key _ _ item _, ht =>
    ⟨surrogateFree_of_str key fun c hc => ht c (by simp [hc]),
      wellFormed_of_denotes item fun c hc => ht c (by simp [hc])⟩

end

theorem wellFormed_of_document {t : Text} {v : Value} (h : Document t v) (ht : t.SurrogateFree) :
    v.WellFormed := by
  obtain ⟨mark, w, body, w', -, -, hbody, -, rfl⟩ := h
  exact wellFormed_of_denotes hbody fun c hc => ht c (by simp [hc])

end Grammar

theorem Source.surrogateFree_of_decode {source : Source} {t : Text} (h : source.decode = .ok t) :
    t.SurrogateFree := by
  cases source with
  | text t' =>
    rw [Source.decode] at h
    split at h
    · rename_i hnone
      obtain rfl := Except.ok.inj h
      exact List.findIdx?_eq_none_iff.mp hnone
    · simp at h
  | bytes bs =>
    rw [Source.decode] at h
    split at h
    · rename_i hscan
      obtain rfl := Except.ok.inj h
      exact Utf8.surrogateFree_of_scan hscan
    · simp at h
  | other d => simp [Source.decode] at h

theorem wellFormed_of_parse {limit : Nat} {source : Source} {v : Value}
    (h : parse limit source = .ok v) : v.WellFormed := by
  obtain ⟨t, hdecode, hdocument, -⟩ := parse_eq_ok_iff.mp h
  exact Grammar.wellFormed_of_document hdocument (Source.surrogateFree_of_decode hdecode)

theorem depth_le_of_parse {limit : Nat} {source : Source} {v : Value}
    (h : parse limit source = .ok v) : v.depth ≤ limit := by
  obtain ⟨t, -, -, hdepth⟩ := parse_eq_ok_iff.mp h
  exact hdepth

end CanonJson
