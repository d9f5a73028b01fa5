import CanonJson.Proofs.Document
import CanonJson.Proofs.Order.Respelled
/-!
# Canonical documents with sorted arrays and normalized numbers

Where arrays are sorted by a member and numbers are normalized, the first pass compares containers by texts
with the numbers as they came, and the second by texts with the numbers as they were printed. So the second
pass may still move array items. It leaves the document alone exactly if the containers that arrays are
sorted by compare in the same way with normalized numbers, and whatever it does, a third pass changes
nothing.
-/

namespace CanonJson

section Passes

variable {order : SortOptions} {layout : LayoutOptions} {v : Value} {limit : Nat}

/-- What the second pass reads. -/
theorem parse_first_pass (hnumbers : layout.numbers = .normalized) (hv : v.WellFormed)
    (hdepth : v.depth ≤ limit) :
    parse limit (.bytes (canonicalOctets order layout v)) = .ok (arranged order v).normalized := by
  rw [parse_canonicalOctets order layout hv hdepth, Layout.shownNumber_normalized hnumbers,
    Value.normalized]

/-- What the third pass reads. -/
theorem parse_second_pass (hnumbers : layout.numbers = .normalized) (hv : v.WellFormed)
    (hdepth : v.depth ≤ limit) :
    parse limit (.bytes (canonicalOctets order layout (arranged order v).normalized))
      = .ok (arranged order (arranged order v).normalized) := by
  have harranged : (arranged order v).WellFormed := wellFormed_arranged hv
  have hdepth' : (arranged order v).normalized.depth ≤ limit :=
    calc (arranged order v).normalized.depth
      _ ≤ (arranged order v).depth := Value.depth_mapNumbers_le _
      _ ≤ v.depth := depth_arranged_le order v
      _ ≤ limit := hdepth
  rw [parse_first_pass hnumbers (wellFormed_normalized harranged) hdepth',
    normalized_arranged_normalized harranged]

theorem canonicalOctets_arranged (hv : v.WellFormed) :
    canonicalOctets order layout (arranged order v) = canonicalOctets order layout v := by
  rw [canonicalOctets, arranged_arranged hv, canonicalOctets]

theorem second_pass_eq_iff {member : Text} (hmember : order.arraysBy = some member)
    (hnumbers : layout.numbers = .normalized) (hv : v.WellFormed) :
    canonicalOctets order layout (arranged order v).normalized = canonicalOctets order layout v
      ↔ ∀ items, Value.Occurs (.array items) (arranged order v) → items.Pairwise (NormalLe member) := by
  have harranged : (arranged order v).WellFormed := wellFormed_arranged hv
  rw [canonicalOctets_eq_iff (wellFormed_normalized harranged) hv,
    Layout.shownNumber_normalized hnumbers, ← Value.normalized, ← Value.normalized,
    normalized_arranged_normalized harranged,
    arranged_normalized_eq_self_iff hmember harranged (sortedEverywhere_arranged hv)]

end Passes

/-! ### Two items sorted by an array with one number -/

/-- Arrays are sorted by their member `k`. -/
def sortedByK : SortOptions :=
  { arraysBy := some [CodePoint.ofChar 'k'] }

def numberedItem (t : List Char) : Value :=
  .object [([CodePoint.ofChar 'k'], .array [.number (Text.ofChars t)])]

def twoItems (s t : List Char) : Value :=
  .array [numberedItem s, numberedItem t]

/-- What such an item is compared by. -/
def numberedText (t : List Char) : Text :=
  Layout.documentShape .compact (.array [.number (Text.ofChars t)])

section TwoItems

variable {s t : List Char}

theorem wellFormed_twoItems (hs : isNumeral (Text.ofChars s) = true)
    (ht : isNumeral (Text.ofChars t) = true) : (twoItems s t).WellFormed := by
  have hkey : Text.SurrogateFree [CodePoint.ofChar 'k'] := by decide
  exact ⟨⟨hkey, ⟨hs, trivial⟩, trivial⟩, ⟨hkey, ⟨ht, trivial⟩, trivial⟩, trivial⟩

theorem elementKey_numberedItem (ht : isNumeral (Text.ofChars t) = true) :
    elementKey [CodePoint.ofChar 'k'] (numberedItem t) = .carries 5 (.text (numberedText t)) := by
  have hv : (Value.array [.number (Text.ofChars t)]).WellFormed := ⟨ht, trivial⟩
  have hindent : checkIndent LayoutOptions.compact.indent = .ok () := rfl
  have hkey : TypedKey.ofValue (.array [.number (Text.ofChars t)]) = .ok (.text (numberedText t)) := by
    simp only [TypedKey.ofValue, render_eq_ok hindent hv.printable]
    rfl
  rw [elementKey_eq]
  show valueKey (.array [.number (Text.ofChars t)]) = _
  rw [valueKey, hkey]
  rfl

theorem arranged_numberedItem (t : List Char) :
    arranged sortedByK (numberedItem t) = numberedItem t := by
  simp [numberedItem, sortedByK, arrangeMembers, arrangeItems]

theorem arranged_twoItems (hs : isNumeral (Text.ofChars s) = true)
    (ht : isNumeral (Text.ofChars t) = true) :
    arranged sortedByK (twoItems s t)
      = if lexLe CodePoint.val (numberedText s) (numberedText t) then twoItems s t else twoItems t s := by
  have hpair : ∀ le : Value → Value → Bool, [numberedItem s, numberedItem t].mergeSort le
      = if le (numberedItem s) (numberedItem t) then [numberedItem s, numberedItem t]
        else [numberedItem t, numberedItem s] := by
    intro le
    simp [List.mergeSort, List.merge]
  rw [twoItems, arranged_array, List.map_cons, List.map_cons, List.map_nil, arranged_numberedItem,
    arranged_numberedItem, arrangeItems]
  simp only [sortedByK, hpair, elementKey_numberedItem hs, elementKey_numberedItem ht, ElementKey.le,
    Nat.lt_irrefl, TypedKey.le, ↓reduceIte]
  split <;> rfl

theorem exists_singleton_of_occurs_numberedItem {items : List Value}
    (h : Value.Occurs (.array items) (numberedItem t)) : ∃ n, items = [n] := by
  cases h with
  | member hm h =>
    obtain rfl := List.mem_singleton.mp hm
    cases h with
    | self => exact ⟨_, rfl⟩
    | item hv h =>
      obtain rfl := List.mem_singleton.mp hv
      cases h

theorem pairwise_of_occurs_twoItems {R : Value → Value → Prop}
    (hR : R (numberedItem s) (numberedItem t)) {items : List Value}
    (h : Value.Occurs (.array items) (twoItems s t)) : items.Pairwise R := by
  cases h with
  | self => exact List.pairwise_pair.mpr hR
  | item hv h =>
    have hitem : ∃ n, items = [n] := by
      simp only [List.mem_cons, List.not_mem_nil, or_false] at hv
      rcases hv with rfl | rfl
      · exact exists_singleton_of_occurs_numberedItem h
      · exact exists_singleton_of_occurs_numberedItem h
    obtain ⟨n, rfl⟩ := hitem
    exact List.pairwise_singleton R n

def twoItemsDocument (s t : List Char) : Bytes :=
  (Layout.documentShape .compact (twoItems s t)).flatMap Utf8.encodePoint

theorem parse_twoItemsDocument (hs : isNumeral (Text.ofChars s) = true)
    (ht : isNumeral (Text.ofChars t) = true) :
    parse defaultDepth (.bytes (twoItemsDocument s t)) = .ok (twoItems s t) :=
  parse_compact (wellFormed_twoItems hs ht) (show 3 ≤ 512 by decide)

end TwoItems

/-! ### Passes over documents -/

/-- Where arrays are sorted by a member and numbers are normalized, two passes reach a fixed point. One pass
reaches it exactly if no array of the canonical tree has items whose containers under that member, with
normalized numbers, compare the other way round. -/
theorem canonicalizeDocument_twice (order : SortOptions) (layout : LayoutOptions) (limit : Nat)
    (source : Source) (v : Value) (member : Text) (hmember : order.arraysBy = some member)
    (hnumbers : layout.numbers = .normalized) (hindent : layout.indent.Fits)
    (h : parse limit source = .ok v) :
    ∃ u out again, canonicalize order v = .ok u
      ∧ canonicalizeDocument (some order) (some layout) limit source = .ok out
      ∧ canonicalizeDocument (some order) (some layout) limit (.bytes out) = .ok again
      ∧ canonicalizeDocument (some order) (some layout) limit (.bytes again) = .ok again
      ∧ (again = out ↔ ∀ items, Value.Occurs (.array items) u → items.Pairwise (NormalLe member)) := by
  have hv := wellFormed_of_parse h
  have hdepth := depth_le_of_parse h
  have hfirst : parse limit (.bytes (canonicalOctets order layout v)) = _ :=
    parse_first_pass hnumbers hv hdepth
  have hsecond : parse limit (.bytes (canonicalOctets order layout (arranged order v).normalized)) = _ :=
    parse_second_pass hnumbers hv hdepth
  have hthird : canonicalizeDocument (some order) (some layout) limit
        (.bytes (canonicalOctets order layout (arranged order v).normalized))
      = .ok (canonicalOctets order layout (arranged order (arranged order v).normalized)) :=
    canonicalizeDocument_eq_ok hindent hsecond
  rw [canonicalOctets_arranged (wellFormed_normalized (wellFormed_arranged hv))] at hthird
  exact ⟨_, _, _, canonicalize_eq_ok order hv, canonicalizeDocument_eq_ok hindent h,
    canonicalizeDocument_eq_ok hindent hfirst, hthird, second_pass_eq_iff hmember hnumbers hv⟩

/-- Numbers in an unusual spelling, which compare in the same way when they are normalized. -/
theorem canonicalizeDocument_twice_in_order :
    let v := twoItems ['1', '0', 'e', '0'] ['2', '.', '0']
    let source : Source := .bytes (twoItemsDocument ['1', '0', 'e', '0'] ['2', '.', '0'])
    parse defaultDepth source = .ok v ∧ LayoutOptions.rfc8785.indent.Fits
      ∧ ∃ out, canonicalizeDocument (some sortedByK) (some .rfc8785) defaultDepth source = .ok out
        ∧ canonicalizeDocument (some sortedByK) (some .rfc8785) defaultDepth (.bytes out) = .ok out := by
  intro v source
  have hv : v.WellFormed := wellFormed_twoItems (by decide) (by decide)
  have hparse : parse defaultDepth source = .ok v := parse_twoItemsDocument (by decide) (by decide)
  have hindent : LayoutOptions.rfc8785.indent.Fits := by decide
  have hsorted : arranged sortedByK v = v := by
    rw [arranged_twoItems (by decide) (by decide), if_pos (by decide)]
  obtain ⟨u, out, again, hu, hout, hagain, -, hiff⟩ :=
    canonicalizeDocument_twice sortedByK .rfc8785 defaultDepth source v _ rfl rfl hindent hparse
  rw [canonicalize_eq_ok sortedByK hv, hsorted] at hu
  obtain rfl := Except.ok.inj hu
  have hsame : again = out := by
    apply hiff.mpr
    intro items hoccurs
    refine pairwise_of_occurs_twoItems ?_ hoccurs
    intro x hx y hy _ _
    obtain rfl := Option.some.inj hx
    obtain rfl := Option.some.inj hy
    decide
  rw [hsame] at hagain
  exact ⟨hparse, hindent, out, hout, hagain⟩

/-- A number in an unusual spelling goes before a smaller one, and the second pass turns them round. -/
theorem canonicalizeDocument_second_pass_moves :
    canonicalizeDocument (some sortedByK) (some .rfc8785) defaultDepth
        (.bytes (twoItemsDocument ['0', '.', '5', 'e', '1'] ['4'])) = .ok (twoItemsDocument ['5'] ['4'])
      ∧ canonicalizeDocument (some sortedByK) (some .rfc8785) defaultDepth
        (.bytes (twoItemsDocument ['5'] ['4'])) = .ok (twoItemsDocument ['4'] ['5'])
      ∧ twoItemsDocument ['4'] ['5'] ≠ twoItemsDocument ['5'] ['4'] := by
  have hindent : LayoutOptions.rfc8785.indent.Fits := by decide
  have hpass : ∀ {s t : List Char}, isNumeral (Text.ofChars s) = true → isNumeral (Text.ofChars t) = true →
      canonicalizeDocument (some sortedByK) (some .rfc8785) defaultDepth (.bytes (twoItemsDocument s t))
        = .ok (canonicalOctets sortedByK .rfc8785 (twoItems s t)) :=
    fun hs ht => canonicalizeDocument_eq_ok hindent (parse_twoItemsDocument hs ht)
  refine ⟨?_, ?_, by decide⟩
  · rw [hpass (by decide) (by decide), canonicalOctets, arranged_twoItems (by decide) (by decide),
      if_pos (by decide)]
    rfl
  · rw [hpass (by decide) (by decide), canonicalOctets, arranged_twoItems (by decide) (by decide),
      if_neg (by decide)]
    rfl

end CanonJson
