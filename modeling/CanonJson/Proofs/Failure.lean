import CanonJson.Proofs.Document
import CanonJson.Proofs.Value.Occurs
/-!
# What can fail on a document

Sorting and printing have their own ways to fail: a number node without number text, a surrogate in a key or
in a string, a node that is no value, sort keys of different types. None of them is open to a tree that was
read. So on text and on octets the only failures are those of reading, except that the indentation of one
level may be more than there is memory for, and that does not depend on the document.
-/

namespace CanonJson

open Value

/-! ### Reading -/

theorem Source.exists_malformed_of_decode {source : Source} (hsource : ∀ d, source ≠ .other d)
    {p : Problem} (h : source.decode = .error p) : ∃ e, p = .malformed e := by
  cases source with
  | text t =>
    rw [decode] at h
    split at h
    · simp at h
    · exact ⟨_, (Except.error.inj h).symm⟩
  | bytes bs =>
    rw [decode] at h
    split at h
    · simp at h
    · exact ⟨_, (Except.error.inj h).symm⟩
  | other d => exact absurd rfl (hsource d)

theorem exists_malformed_of_parse {limit : Nat} {source : Source}
    (hsource : ∀ d, source ≠ .other d) {p : Problem} (h : parse limit source = .error p) :
    ∃ e, p = .malformed e := by
  rw [parse] at h
  cases hdecode : source.decode with
  | error q =>
    rw [hdecode, error_bind] at h
    obtain rfl := Except.error.inj h
    exact Source.exists_malformed_of_decode hsource hdecode
  | ok t =>
    rw [hdecode, ok_bind] at h
    split at h
    · simp [pure, Except.pure] at h
    · exact ⟨_, (Except.error.inj h).symm⟩

/-! ### Sort keys -/

/-- Two keys can be compared: those of one rank have one type. -/
def ElementKey.Comparable : ElementKey → ElementKey → Prop
  | .carries r a, .carries s b => r = s → a.kind = b.kind
  | _, _ => True

theorem ElementKey.Typed.comparable {k l : ElementKey} (hk : k.Typed) (hl : l.Typed) :
    k.Comparable l := by
  cases k with
  | last => trivial
  | carries r a =>
    cases l with
    | last => trivial
    | carries s b =>
      intro hrank
      rw [Typed] at hk hl
      rw [hk, hl, hrank]

/-! ### Trees -/

/-- What sorting and printing ask of a tree: every number has parts, no string and no key holds a surrogate,
so that every member has a sort key in either order, and the items of every array, with their own children
sorted, have sort keys that can be compared, whatever member the array is sorted by. -/
structure Value.Processable (v : Value) : Prop where
  numbers : ∀ t, Occurs (.number t) v → ∃ p, NumberParts.ofText? t = some p
  strings : ∀ t, Occurs (.string t) v → t.SurrogateFree
  keys : ∀ members, Occurs (.object members) v → ∀ m ∈ members,
    m.1.SurrogateFree ∧ ∀ order, ∃ k, memberKey order m.1 = .ok k
  items : ∀ items, Occurs (.array items) v → ∀ a ∈ items, ∀ b ∈ items, ∀ order member,
    ∃ a' b' k l, canonicalize order a = .ok a' ∧ canonicalize order b = .ok b'
      ∧ ElementKey.ofItem member a' = .ok k ∧ ElementKey.ofItem member b' = .ok l ∧ k.Comparable l

theorem Value.WellFormed.processable {v : Value} (hv : v.WellFormed) : v.Processable where
  numbers t h := by
    have ht : isNumeral t = true := hv.of_occurs h
    obtain ⟨p, hp, -⟩ := exists_reduced_of_isNumeral ht
    exact ⟨p, hp⟩
  strings t h := hv.of_occurs h
  keys members h m hm := by
    have hkey := (wellFormed_object.mp (hv.of_occurs h) m hm).1
    refine ⟨hkey, fun order => ?_⟩
    obtain ⟨g, hg, -⟩ := memberKey_spec order
    exact ⟨g m.1, hg m.1 fun _ => hkey⟩
  items items h a ha b hb order member := by
    have hwf := wellFormed_array.mp (hv.of_occurs h)
    obtain ⟨k, hk, htyped⟩ := elementKey_of_wellFormed member (wellFormed_arranged (hwf a ha))
    obtain ⟨l, hl, htyped'⟩ := elementKey_of_wellFormed member (wellFormed_arranged (hwf b hb))
    exact ⟨_, _, k, l, canonicalize_eq_ok order (hwf a ha), canonicalize_eq_ok order (hwf b hb), hk, hl,
      htyped.comparable htyped'⟩

/-! ### Documents -/

section Documents

variable (order : Option SortOptions) (layout : Option LayoutOptions) {limit : Nat} {source : Source}

theorem canonicalizeDocument_of_parse_error {p : Problem} (h : parse limit source = .error p) :
    canonicalizeDocument order layout limit source = .error p := by
  rw [canonicalizeDocument, h, error_bind]

theorem digestDocument_of_parse_error {p : Problem} (h : parse limit source = .error p) :
    digestDocument order layout limit source = .error p := by
  rw [digestDocument, h, error_bind]

/-- The digest fails as printing fails. -/
theorem digestDocument_eq_map {v : Value} (h : parse limit source = .ok v) :
    digestDocument order layout limit source
      = (canonicalBytes (order.getD .rfc8785) (layout.getD .rfc8785) v).map digestBytes := by
  rw [digestDocument, h, ok_bind, digestValue]
  cases canonicalBytes (order.getD .rfc8785) (layout.getD .rfc8785) v <;> rfl

theorem fits_getD {layout : Option LayoutOptions} (other : LayoutOptions) (hother : other.indent.Fits)
    (h : ∀ l ∈ layout, l.indent.Fits) : (layout.getD other).indent.Fits := by
  cases layout with
  | none => exact hother
  | some l => exact h l rfl

end Documents

/-- Reading is the only step that fails on text or octets, and canonical form and digest pass its failure on,
as long as the indentation of one level can be made. What was read is all that sorting and printing ask for.
If it cannot be made, there is neither a canonical form nor a digest of any document. -/
theorem canonicalizeDocument_fails_only_malformed (order : Option SortOptions)
    (layout : Option LayoutOptions) (limit : Nat) (source : Source) (hsource : ∀ d, source ≠ .other d) :
    ((∀ l ∈ layout, l.indent.Fits) →
      (∃ out digest, canonicalizeDocument order layout limit source = .ok out
        ∧ digestDocument order layout limit source = .ok digest)
      ∨ ∃ e, parse limit source = .error (.malformed e)
        ∧ canonicalizeDocument order layout limit source = .error (.malformed e)
        ∧ digestDocument order layout limit source = .error (.malformed e))
    ∧ (∀ v, parse limit source = .ok v → v.Processable
      ∧ ∀ o, ∃ u, canonicalize o v = .ok u ∧ ∀ l : LayoutOptions, l.indent.Fits → ∃ bs, renderBytes l u = .ok bs)
    ∧ (∀ l e, layout = some l → checkIndent l.indent = .error e → ∀ v, parse limit source = .ok v →
      canonicalizeDocument order layout limit source = .error e
      ∧ digestDocument order layout limit source = .error e)
    ∧ ∀ l count, layout = some l → l.indent = .spaces count → indexBound ≤ count →
      ∀ v, parse limit source = .ok v →
        canonicalizeDocument order layout limit source = .error .countTooLarge
        ∧ digestDocument order layout limit source = .error .countTooLarge := by
  have hunfit : ∀ l e, layout = some l → checkIndent l.indent = .error e → ∀ v, parse limit source = .ok v →
      canonicalizeDocument order layout limit source = .error e
      ∧ digestDocument order layout limit source = .error e := by
    intro l e hlayout hindent v hparse
    subst hlayout
    refine ⟨canonicalizeDocument_eq_error hindent hparse, ?_⟩
    rw [digestDocument_eq_map _ _ hparse, Option.getD_some, canonicalBytes_eq_error _ hindent (wellFormed_of_parse hparse)]
    rfl
  refine ⟨?_, ?_, hunfit, ?_⟩
  · intro hindent
    cases hparse : parse limit source with
    | error p =>
      obtain ⟨e, rfl⟩ := exists_malformed_of_parse hsource hparse
      exact .inr ⟨e, rfl, canonicalizeDocument_of_parse_error order layout hparse,
        digestDocument_of_parse_error order layout hparse⟩
    | ok v =>
      have hbytes := canonicalBytes_eq_ok (order.getD .rfc8785) (fits_getD .rfc8785 (by decide) hindent)
        (wellFormed_of_parse hparse)
      have hdigest := digestDocument_eq_map order layout hparse
      rw [hbytes] at hdigest
      exact .inl ⟨_, _, canonicalizeDocument_eq_ok (fits_getD {} (by decide) hindent) hparse, hdigest⟩
  · intro v hparse
    have hv := wellFormed_of_parse hparse
    refine ⟨hv.processable, fun o => ⟨_, canonicalize_eq_ok o hv, fun l hindent => ?_⟩⟩
    exact ⟨_, renderBytes_eq_ok hindent (wellFormed_arranged hv)⟩
  · intro l count hlayout hspaces hcount
    apply hunfit l _ hlayout
    rw [hspaces, checkIndent_of_index hcount]

/-- Array items with sort values of different types, and one without. -/
theorem canonicalizeDocument_fails_only_malformed_mixed :
    let k : Text := [CodePoint.ofChar 'k']
    let v : Value := .array [.object [(k, .string k), (k, .null)],
      .object [(k, .number (Text.ofChars ['1', 'E', '5']))], .bool true]
    let source : Source := .bytes ((Layout.documentShape .compact v).flatMap Utf8.encodePoint)
    let order : SortOptions := { arraysBy := some k }
    (∀ d, source ≠ .other d) ∧ parse 2 source = .ok v ∧ v.Processable
      ∧ ∃ out digest, canonicalizeDocument (some order) (some .rfc8785) 2 source = .ok out
        ∧ digestDocument (some order) (some .rfc8785) 2 source = .ok digest := by
  intro k v source order
  have hk : k.SurrogateFree := by decide
  have hnumber : isNumeral (Text.ofChars ['1', 'E', '5']) = true := by decide
  have hv : v.WellFormed :=
    ⟨⟨hk, hk, hk, trivial, trivial⟩, ⟨hk, hnumber, trivial⟩, trivial, trivial⟩
  have hparse : parse 2 source = .ok v := parse_compact hv (by decide)
  have hsource : ∀ d, source ≠ .other d := by
    simp [source]
  obtain ⟨houtcome, hread, -, -⟩ :=
    canonicalizeDocument_fails_only_malformed (some order) (some .rfc8785) 2 source hsource
  refine ⟨hsource, hparse, (hread v hparse).1, ?_⟩
  rcases houtcome (by decide) with h | ⟨e, he, -⟩
  · exact h
  · rw [hparse] at he
    cases he

/-- No string is as long as this indentation: a document that is read has neither a canonical form nor a
digest, and is not malformed. -/
theorem not_malformed_of_countTooLarge :
    let layout : LayoutOptions := { indent := .spaces 0x8000000000000000 }
    let source : Source := .bytes [0x30]
    (∃ v, parse 1 source = .ok v)
      ∧ ¬ ((∃ out, canonicalizeDocument none (some layout) 1 source = .ok out)
        ∨ ∃ e, canonicalizeDocument none (some layout) 1 source = .error (.malformed e))
      ∧ ¬ ((∃ digest, digestDocument none (some layout) 1 source = .ok digest)
        ∨ ∃ e, digestDocument none (some layout) 1 source = .error (.malformed e)) := by
  intro layout source
  have hv : (Value.number (Text.ofChars ['0'])).WellFormed := by
    rw [WellFormed]
    decide
  have hparse : parse 1 source = .ok (.number (Text.ofChars ['0'])) := parse_compact hv (by decide)
  have hindent : checkIndent layout.indent = .error .countTooLarge := checkIndent_of_index (by decide)
  have hcanonical : canonicalizeDocument none (some layout) 1 source = .error .countTooLarge :=
    canonicalizeDocument_eq_error hindent hparse
  have hdigest : digestDocument none (some layout) 1 source = .error .countTooLarge := by
    rw [digestDocument_eq_map _ _ hparse, Option.getD_some, canonicalBytes_eq_error _ hindent hv]
    rfl
  refine ⟨⟨_, hparse⟩, ?_, ?_⟩
  · rw [hcanonical]
    simp
  · rw [hdigest]
    simp

end CanonJson
