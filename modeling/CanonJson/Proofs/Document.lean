import CanonJson.Document
import CanonJson.Proofs.Layout.RoundTrip
import CanonJson.Proofs.Order.Equivalence
/-!
# Canonical documents

The octets of a tree's canonical form are read back as the canonical tree with its numbers as they were
printed. So these octets determine that tree, and it determines them. Where sorting does not look at
number texts, or these are printed as written, that tree is its own canonical form, and canonical
documents are fixed points. With the options of RFC 8785 the octets stand for the document up to
equivalence.
-/

namespace CanonJson

/-- The octets of the canonical form of a well-formed tree. -/
def canonicalOctets (order : SortOptions) (layout : LayoutOptions) (v : Value) : Bytes :=
  (Layout.documentShape layout (arranged order v)).flatMap Utf8.encodePoint

section Octets

variable {order : SortOptions} {layout : LayoutOptions} {v : Value}

theorem canonicalBytes_eq_ok (order : SortOptions) (hindent : layout.indent.Fits)
    (hv : v.WellFormed) : canonicalBytes order layout v = .ok (canonicalOctets order layout v) := by
  rw [canonicalBytes, canonicalize_eq_ok order hv, ok_bind,
    renderBytes_eq_ok hindent (wellFormed_arranged hv)]
  rfl

theorem canonicalBytes_eq_error (order : SortOptions) {e : Problem} (hindent : checkIndent layout.indent = .error e)
    (hv : v.WellFormed) : canonicalBytes order layout v = .error e := by
  rw [canonicalBytes, canonicalize_eq_ok order hv, ok_bind, renderBytes_eq_error hindent]

/-- What is read from the octets of a canonical form. -/
theorem parse_canonicalOctets (order : SortOptions) (layout : LayoutOptions) (hv : v.WellFormed)
    {limit : Nat} (hdepth : v.depth ≤ limit) :
    parse limit (.bytes (canonicalOctets order layout v))
      = .ok ((arranged order v).mapNumbers (Layout.shownNumber layout)) :=
  parse_documentShape layout (wellFormed_arranged hv) (Nat.le_trans (depth_arranged_le order v) hdepth)

/-- Canonical forms have the same octets exactly if they are the same tree with its numbers as printed. -/
theorem canonicalOctets_eq_iff {u : Value} (hv : v.WellFormed) (hu : u.WellFormed) :
    canonicalOctets order layout v = canonicalOctets order layout u
      ↔ (arranged order v).mapNumbers (Layout.shownNumber layout)
        = (arranged order u).mapNumbers (Layout.shownNumber layout) := by
  constructor
  · intro h
    -- Both are read back under a limit that both trees keep.
    have hreadv := parse_canonicalOctets order layout hv (Nat.le_max_left v.depth u.depth)
    have hreadu := parse_canonicalOctets order layout hu (Nat.le_max_right v.depth u.depth)
    rw [h] at hreadv
    exact Except.ok.inj (hreadv.symm.trans hreadu)
  · intro h
    rw [canonicalOctets, canonicalOctets,
      ← Layout.documentShape_mapNumbers layout (wellFormed_arranged hv),
      ← Layout.documentShape_mapNumbers layout (wellFormed_arranged hu), h]

/-- The tree that is read back is in canonical order, unless arrays are sorted by number texts that change. -/
theorem arranged_shown (h : order.arraysBy = none ∨ layout.numbers = .verbatim)
    (hv : v.WellFormed) :
    arranged order ((arranged order v).mapNumbers (Layout.shownNumber layout))
      = (arranged order v).mapNumbers (Layout.shownNumber layout) := by
  rcases h with harrays | hverbatim
  · rw [arranged_mapNumbers harrays, arranged_arranged hv]
  · rw [Layout.shownNumber_verbatim hverbatim, Value.mapNumbers_id, arranged_arranged hv]

theorem canonicalOctets_shown (h : order.arraysBy = none ∨ layout.numbers = .verbatim)
    (hv : v.WellFormed) :
    canonicalOctets order layout ((arranged order v).mapNumbers (Layout.shownNumber layout))
      = canonicalOctets order layout v := by
  rw [canonicalOctets, arranged_shown h hv,
    Layout.documentShape_mapNumbers layout (wellFormed_arranged hv),
    canonicalOctets]

end Octets

/-! ### Fixed points -/

section Documents

variable {order : Option SortOptions} {layout : Option LayoutOptions} {limit : Nat} {source : Source} {v : Value}

theorem canonicalizeDocument_eq_ok (hindent : (layout.getD {}).indent.Fits)
    (h : parse limit source = .ok v) :
    canonicalizeDocument order layout limit source
      = .ok (canonicalOctets (order.getD {}) (layout.getD {}) v) := by
  rw [canonicalizeDocument, h, ok_bind, canonicalBytes_eq_ok _ hindent (wellFormed_of_parse h)]

theorem canonicalizeDocument_eq_error {e : Problem} (hindent : checkIndent (layout.getD {}).indent = .error e)
    (h : parse limit source = .ok v) : canonicalizeDocument order layout limit source = .error e := by
  rw [canonicalizeDocument, h, ok_bind, canonicalBytes_eq_error _ hindent (wellFormed_of_parse h)]

theorem exists_parse_of_canonicalizeDocument {bs : Bytes}
    (h : canonicalizeDocument order layout limit source = .ok bs) :
    ∃ v, parse limit source = .ok v := by
  obtain ⟨v, hv, -⟩ := bind_eq_ok_iff.mp h
  exact ⟨v, hv⟩

/-- The canonical form of a document is accepted under the same limit and is its own canonical form. -/
theorem canonicalizeDocument_canonicalOctets
    (hoptions : (order.getD {}).arraysBy = none ∨ (layout.getD {}).numbers = .verbatim)
    (hindent : (layout.getD {}).indent.Fits) (h : parse limit source = .ok v) :
    canonicalizeDocument order layout limit (.bytes (canonicalOctets (order.getD {}) (layout.getD {}) v))
      = .ok (canonicalOctets (order.getD {}) (layout.getD {}) v) := by
  have hv := wellFormed_of_parse h
  have hread := parse_canonicalOctets (order.getD {}) (layout.getD {}) hv (depth_le_of_parse h)
  rw [canonicalizeDocument_eq_ok hindent hread, canonicalOctets_shown hoptions hv]

theorem isCanonicalDocument_eq_true_iff {bs : Bytes} :
    isCanonicalDocument order layout limit bs = .ok true
      ↔ canonicalizeDocument order layout limit (.bytes bs) = .ok bs := by
  rw [isCanonicalDocument, bind_eq_ok_iff]
  constructor
  · rintro ⟨out, hout, h⟩
    have hsame : (out == bs) = true := Except.ok.inj h
    rw [eq_of_beq hsame] at hout
    exact hout
  · intro h
    exact ⟨bs, h, congrArg Except.ok (beq_self_eq_true bs)⟩

end Documents

/-- Canonical documents are fixed points, and they are what the test for canonical form accepts: for every
order and layout in which arrays are not sorted or numbers are printed as written. An indentation that cannot
be made is the only reason for an accepted document not to have a canonical form. -/
theorem canonicalizeDocument_fixed (order : Option SortOptions) (layout : Option LayoutOptions)
    (limit : Nat)
    (hoptions : (order.getD {}).arraysBy = none ∨ (layout.getD {}).numbers = .verbatim) :
    ((layout.getD {}).indent.Fits →
      (∀ source v, parse limit source = .ok v →
        ∃ out, canonicalizeDocument order layout limit source = .ok out
          ∧ (∃ u, parse limit (.bytes out) = .ok u)
          ∧ canonicalizeDocument order layout limit (.bytes out) = .ok out)
      ∧ ∀ bs, isCanonicalDocument order layout limit bs = .ok true
        ↔ ∃ source v, parse limit source = .ok v ∧ canonicalizeDocument order layout limit source = .ok bs)
    ∧ (∀ e, checkIndent (layout.getD {}).indent = .error e → ∀ source v, parse limit source = .ok v →
      canonicalizeDocument order layout limit source = .error e)
    ∧ ∀ count, (layout.getD {}).indent = .spaces count → indexBound ≤ count →
      ∀ source v, parse limit source = .ok v →
        canonicalizeDocument order layout limit source = .error .countTooLarge := by
  have hunfit : ∀ e, checkIndent (layout.getD {}).indent = .error e → ∀ source v, parse limit source = .ok v →
      canonicalizeDocument order layout limit source = .error e :=
    fun e hindent source v h => canonicalizeDocument_eq_error hindent h
  refine ⟨fun hindent => ⟨?_, ?_⟩, hunfit, fun count hspaces hcount => ?_⟩
  · intro source v h
    have hread := parse_canonicalOctets (order.getD {}) (layout.getD {}) (wellFormed_of_parse h)
      (depth_le_of_parse h)
    exact ⟨_, canonicalizeDocument_eq_ok hindent h, ⟨_, hread⟩,
      canonicalizeDocument_canonicalOctets hoptions hindent h⟩
  · intro bs
    rw [isCanonicalDocument_eq_true_iff]
    constructor
    · intro h
      obtain ⟨v, hv⟩ := exists_parse_of_canonicalizeDocument h
      exact ⟨.bytes bs, v, hv, h⟩
    · rintro ⟨source, v, hv, h⟩
      rw [canonicalizeDocument_eq_ok hindent hv] at h
      obtain rfl := Except.ok.inj h
      exact canonicalizeDocument_canonicalOctets hoptions hindent hv
  · apply hunfit
    rw [hspaces, checkIndent_of_index hcount]

/-- A document for every well-formed tree. -/
theorem parse_compact {v : Value} (hv : v.WellFormed) {limit : Nat} (hdepth : v.depth ≤ limit) :
    parse limit (.bytes ((Layout.documentShape .compact v).flatMap Utf8.encodePoint)) = .ok v := by
  rw [parse_documentShape .compact hv hdepth, Layout.shownNumber_verbatim rfl, Value.mapNumbers_id]

/-- Repeated keys out of order, and a number that is not normalized. -/
theorem canonicalizeDocument_fixed_normalized :
    let v : Value := .object [([CodePoint.ofChar 'b'], .number (Text.ofChars ['1', '2', '.', '5', '0', 'E', '3'])),
      ([CodePoint.ofChar 'a'], .array [.null]), ([CodePoint.ofChar 'b'], .array [])]
    let source : Source := .bytes ((Layout.documentShape .compact v).flatMap Utf8.encodePoint)
    let layout : LayoutOptions := { numbers := .normalized }
    parse 2 source = .ok v ∧ layout.indent.Fits
      ∧ ∃ out, canonicalizeDocument none (some layout) 2 source = .ok out
        ∧ (∃ u, parse 2 (.bytes out) = .ok u)
        ∧ canonicalizeDocument none (some layout) 2 (.bytes out) = .ok out := by
  intro v source layout
  have ha : Text.SurrogateFree [CodePoint.ofChar 'a'] := by decide
  have hb : Text.SurrogateFree [CodePoint.ofChar 'b'] := by decide
  have hnumber : isNumeral (Text.ofChars ['1', '2', '.', '5', '0', 'E', '3']) = true := by decide
  have hv : v.WellFormed := ⟨hb, hnumber, ha, ⟨trivial, trivial⟩, hb, trivial, trivial⟩
  have hparse : parse 2 source = .ok v := parse_compact hv (by decide)
  have hindent : layout.indent.Fits := by decide
  exact ⟨hparse, hindent,
    ((canonicalizeDocument_fixed none (some layout) 2 (.inl rfl)).1 hindent).1 source v hparse⟩

/-- No string is as long as this indentation, so that an accepted document has no canonical form. -/
theorem not_canonicalizeDocument_of_countTooLarge :
    let layout : LayoutOptions := { indent := .spaces 0x8000000000000000 }
    let source : Source := .bytes [0x30]
    (∃ v, parse 1 source = .ok v)
      ∧ ¬ ∃ out, canonicalizeDocument none (some layout) 1 source = .ok out := by
  intro layout source
  have hv : (Value.number (Text.ofChars ['0'])).WellFormed := by
    rw [Value.WellFormed]
    decide
  have hparse : parse 1 source = .ok (.number (Text.ofChars ['0'])) := parse_compact hv (by decide)
  refine ⟨⟨_, hparse⟩, ?_⟩
  rintro ⟨out, hout⟩
  have hindent : checkIndent ((some layout).getD {}).indent = .error .countTooLarge :=
    checkIndent_of_index (by decide)
  rw [canonicalizeDocument_eq_error hindent hparse] at hout
  cases hout

/-! ### Documents up to equivalence -/

/-- The digest of a document is that of the octets of its canonical form. -/
theorem digestDocument_eq_ok {limit : Nat} {source : Source} {v : Value}
    (h : parse limit source = .ok v) :
    digestDocument none none limit source
      = .ok (digestBytes (canonicalOctets .rfc8785 .rfc8785 v)) := by
  have hindent : LayoutOptions.rfc8785.indent.Fits := by decide
  have hbytes := canonicalBytes_eq_ok .rfc8785 hindent (wellFormed_of_parse h)
  rw [digestDocument, h, ok_bind, digestValue]
  simp only [Option.getD_none, hbytes]
  rfl

theorem canonicalOctets_rfc8785_eq_iff {v u : Value} (hv : v.WellFormed) (hu : u.WellFormed) :
    canonicalOctets .rfc8785 .rfc8785 v = canonicalOctets .rfc8785 .rfc8785 u
      ↔ Value.Equivalent Value.SameNumber v u := by
  rw [canonicalOctets_eq_iff hv hu, arranged_eq_iff_equivalent rfl rfl hv hu,
    @Layout.shownNumber_normalized .rfc8785 rfl]
  constructor
  · intro h
    exact h.mono hv hu fun s t hs ht => (normalNumber_eq_iff hs ht).mp
  · intro h
    exact h.mono hv hu fun s t hs ht => (normalNumber_eq_iff hs ht).mpr

/-- The octets that are digested under the options of RFC 8785 are the same for two documents exactly if their
trees are equivalent: up to the order of members with different keys, and up to the spelling of numbers. -/
theorem digest_octets_eq_iff_equivalent (l₁ l₂ : Nat) (d₁ d₂ : Source) (t₁ t₂ : Value)
    (h₁ : parse l₁ d₁ = .ok t₁) (h₂ : parse l₂ d₂ = .ok t₂) :
    ∃ b₁ b₂, canonicalBytes .rfc8785 .rfc8785 t₁ = .ok b₁ ∧ canonicalBytes .rfc8785 .rfc8785 t₂ = .ok b₂
      ∧ digestDocument none none l₁ d₁ = .ok (digestBytes b₁)
      ∧ digestDocument none none l₂ d₂ = .ok (digestBytes b₂)
      ∧ (b₁ = b₂ ↔ Value.Equivalent Value.SameNumber t₁ t₂) := by
  have hindent : LayoutOptions.rfc8785.indent.Fits := by decide
  have hv := wellFormed_of_parse h₁
  have hu := wellFormed_of_parse h₂
  exact ⟨_, _, canonicalBytes_eq_ok _ hindent hv, canonicalBytes_eq_ok _ hindent hu, digestDocument_eq_ok h₁,
    digestDocument_eq_ok h₂, canonicalOctets_rfc8785_eq_iff hv hu⟩

/-- Members in another order, and a number in another spelling. -/
theorem digest_octets_eq_iff_equivalent_reordered :
    let a : Text := [CodePoint.ofChar 'a']
    let b : Text := [CodePoint.ofChar 'b']
    let s : Text := Text.ofChars ['1', '.', '5', '0']
    let t : Text := Text.ofChars ['1', '5', '0', 'e', '-', '2']
    let d₁ : Bytes := (Layout.documentShape .compact (.object [(b, .number s), (a, .null)])).flatMap Utf8.encodePoint
    let d₂ : Bytes := (Layout.documentShape .compact (.object [(a, .null), (b, .number t)])).flatMap Utf8.encodePoint
    ∃ bs, digestDocument none none 1 (.bytes d₁) = .ok (digestBytes bs)
      ∧ digestDocument none none 2 (.bytes d₂) = .ok (digestBytes bs) := by
  intro a b s t d₁ d₂
  have ha : a.SurrogateFree := by decide
  have hb : b.SurrogateFree := by decide
  have hs : isNumeral s = true := by decide
  have ht : isNumeral t = true := by decide
  have hwf₁ : (Value.object [(b, .number s), (a, .null)]).WellFormed := ⟨hb, hs, ha, trivial, trivial⟩
  have hwf₂ : (Value.object [(a, .null), (b, .number t)]).WellFormed := ⟨ha, trivial, hb, ht, trivial⟩
  have hparse₁ : parse 1 (.bytes d₁) = .ok _ := parse_compact hwf₁ (by decide)
  have hparse₂ : parse 2 (.bytes d₂) = .ok _ := parse_compact hwf₂ (by decide)
  have hsame : Value.SameNumber s t := by
    unfold Value.SameNumber
    decide
  have hequivalent : Value.Equivalent Value.SameNumber (.object [(b, .number s), (a, .null)])
      (.object [(a, .null), (b, .number t)]) := by
    refine .object _ _ fun key => ?_
    by_cases hkeyb : b = key
    · subst hkeyb
      exact .cons _ _ _ _ (.number s t hsame) .nil
    · by_cases hkeya : a = key
      · subst hkeya
        exact .cons _ _ _ _ .null .nil
      · simp only [Value.under, List.filter_cons, hkeya, hkeyb, decide_false, Bool.false_eq_true,
          ↓reduceIte,
          List.filter_nil, List.map_nil]
        exact .nil
  obtain ⟨b₁, b₂, -, -, hdigest₁, hdigest₂, hiff⟩ :=
    digest_octets_eq_iff_equivalent 1 2 _ _ _ _ hparse₁ hparse₂
  refine ⟨b₁, hdigest₁, ?_⟩
  rw [hiff.mpr hequivalent]
  exact hdigest₂

end CanonJson
