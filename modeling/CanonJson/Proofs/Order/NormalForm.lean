import CanonJson.Proofs.Order.Equivalence
import CanonJson.Proofs.Value.Token
/-!
# Canonical order as a normal form

Trees that differ only in the order of members with different keys have one canonical tree, also where arrays
are sorted by a member: the items are in canonical order before they are compared. With arrays kept as they
are, nothing else is forgotten. A tree is its own canonical tree exactly if it is sorted at every level, and
this is what the test for canonical order finds out by comparing the two.
-/

namespace CanonJson

open Value

/-- The trees differ only in the order of members with different keys. -/
def Value.Reordered : Value → Value → Prop :=
  Equivalent (· = ·)

section Reordered

variable {o : SortOptions} {a b : Value} (hsort : o.sortKeys = true) (ha : a.WellFormed) (hb : b.WellFormed)

include hsort ha hb

theorem arranged_eq_of_reordered (h : Reordered a b) : arranged o a = arranged o b := by
  refine @form_eq_of_equivalent o a b _ (arranged o) (fun items => .array (arrangeItems o items)) hsort ?_
    (fun items => arranged_array items) (fun members => arranged_object members) ha hb h
  intro s t hst
  rw [hst]

theorem reordered_of_arranged_eq (ho : o.arraysBy = none) (h : arranged o a = arranged o b) :
    Reordered a b := by
  refine @equivalent_of_arranged_eq o (fun t => t) a b hsort ho ha hb ?_
  rw [h]

end Reordered

/-- Canonical order is a normal form for the order of members: it exists for every well-formed tree and does not
depend on how members with different keys are ordered, at any level. Where arrays keep their order it also
tells apart all other trees. -/
theorem canonicalize_eq_iff_reordered (o : SortOptions) (a b : Value) (hsort : o.sortKeys = true)
    (ha : a.WellFormed) (hb : b.WellFormed) :
    ∃ c d, canonicalize o a = .ok c ∧ canonicalize o b = .ok d
      ∧ (Reordered a b → c = d)
      ∧ (o.arraysBy = none → c = d → Reordered a b) :=
  ⟨arranged o a, arranged o b, canonicalize_eq_ok o ha, canonicalize_eq_ok o hb,
    arranged_eq_of_reordered hsort ha hb, reordered_of_arranged_eq hsort ha hb⟩

/-- Arrays sorted by a member, a repeated key, and members in another order. -/
theorem canonicalize_eq_iff_reordered_repeated :
    let k : Text := Text.ofChars ['k']
    let x : Text := Text.ofChars ['x']
    let one : Value := .number (Text.ofChars ['1', '.', '0'])
    let a : Value := .array [.object [(x, .null), (k, one), (x, .bool true)], .object [(k, .null)]]
    let b : Value := .array [.object [(x, .null), (x, .bool true), (k, one)], .object [(k, .null)]]
    Reordered a b ∧ ∃ c, canonicalize ⟨true, .utf16, some k⟩ a = .ok c
      ∧ canonicalize ⟨true, .utf16, some k⟩ b = .ok c := by
  intro k x one a b
  have hk : k.SurrogateFree := by decide
  have hx : x.SurrogateFree := by decide
  have hone : one.WellFormed := by
    show isNumeral (Text.ofChars ['1', '.', '0']) = true
    decide
  have ha : a.WellFormed :=
    ⟨⟨hx, trivial, hk, hone, hx, trivial, trivial⟩, ⟨hk, trivial, trivial⟩, trivial⟩
  have hb : b.WellFormed :=
    ⟨⟨hx, trivial, hx, trivial, hk, hone, trivial⟩, ⟨hk, trivial, trivial⟩, trivial⟩
  have hfirst : Reordered (.object [(x, .null), (k, one), (x, .bool true)])
      (.object [(x, .null), (x, .bool true), (k, one)]) := by
    refine .object _ _ fun key => ?_
    by_cases hkey : x = key
    · subst hkey
      exact .cons _ _ _ _ .null (.cons _ _ _ _ (.bool true) .nil)
    · by_cases hkey' : k = key
      · subst hkey'
        exact .cons _ _ _ _ (.number _ _ rfl) .nil
      · simp only [under, List.filter_cons, hkey, hkey', decide_false, Bool.false_eq_true, ↓reduceIte,
          List.filter_nil, List.map_nil]
        exact .nil
  have hsecond : Reordered (.object [(k, .null)]) (.object [(k, .null)]) := by
    refine .object _ _ fun key => ?_
    by_cases hkey : k = key
    · subst hkey
      exact .cons _ _ _ _ .null .nil
    · simp only [under, List.filter_cons, hkey, decide_false, Bool.false_eq_true, ↓reduceIte,
        List.filter_nil, List.map_nil]
      exact .nil
  have hreordered : Reordered a b := .array _ _ (.cons _ _ _ _ hfirst (.cons _ _ _ _ hsecond .nil))
  obtain ⟨c, d, hc, hd, hsame, -⟩ := canonicalize_eq_iff_reordered ⟨true, .utf16, some k⟩ a b rfl ha hb
  refine ⟨hreordered, c, hc, ?_⟩
  rw [hsame hreordered]
  exact hd

/-! ### The test for canonical order -/

theorem arranged_eq_self_iff {o : SortOptions} {v : Value} (hv : v.WellFormed) :
    arranged o v = v ↔ SortedEverywhere o v := by
  constructor
  · intro h
    rw [← h]
    exact sortedEverywhere_arranged hv
  · exact arranged_of_sortedEverywhere hv

theorem isCanonical_of_wellFormed (o : SortOptions) {v : Value} (hv : v.WellFormed) :
    ∃ verdict, isCanonical o v = .ok verdict ∧ (verdict = true ↔ arranged o v = v) := by
  obtain ⟨verdict, hverdict, hiff⟩ := equal?_of_native (wellFormed_arranged (o := o) hv).native v
  refine ⟨verdict, ?_, hiff⟩
  rw [isCanonical, canonicalize_eq_ok o hv, ok_bind, hverdict]
  rfl

/-- The canonical tree is sorted at every level and is its own canonical tree, and the test for canonical order
accepts exactly the trees that are sorted at every level. -/
theorem isCanonical_iff_sortedEverywhere (o : SortOptions) (v : Value) (hv : v.WellFormed) :
    (∃ c, canonicalize o v = .ok c ∧ c.WellFormed ∧ SortedEverywhere o c ∧ canonicalize o c = .ok c)
      ∧ ∃ verdict, isCanonical o v = .ok verdict ∧ (verdict = true ↔ SortedEverywhere o v) := by
  have hc := wellFormed_arranged (o := o) hv
  constructor
  · refine ⟨arranged o v, canonicalize_eq_ok o hv, hc, sortedEverywhere_arranged hv, ?_⟩
    rw [canonicalize_eq_ok o hc, arranged_arranged hv]
  · obtain ⟨verdict, hverdict, hiff⟩ := isCanonical_of_wellFormed o hv
    exact ⟨verdict, hverdict, hiff.trans (arranged_eq_self_iff hv)⟩

/-- The keys of an object in an array are out of order. -/
theorem isCanonical_iff_sortedEverywhere_nested :
    let a : Text := Text.ofChars ['a']
    let b : Text := Text.ofChars ['b']
    let v : Value := .array [.null, .object [(b, .null), (a, .bool true)]]
    let o : SortOptions := { arraysBy := some a }
    v.WellFormed ∧ isCanonical o v = .ok false
      ∧ ∃ c, canonicalize o v = .ok c ∧ SortedEverywhere o c ∧ canonicalize o c = .ok c := by
  intro a b v o
  have ha : a.SurrogateFree := by decide
  have hb : b.SurrogateFree := by decide
  have hv : v.WellFormed := ⟨trivial, ⟨hb, trivial, ha, trivial, trivial⟩, trivial⟩
  have hunsorted : ¬ SortedEverywhere o v := by
    intro h
    have hobject : SortedEverywhere o (.object [(b, .null), (a, .bool true)]) :=
      (sortedEverywhere_array.mp h).2 _ (by simp)
    have hkeys := (sortedEverywhere_object.mp hobject).1 rfl
    have hle : o.keyOrder.le b a = true := (List.pairwise_cons.mp hkeys).1 (a, .bool true) (by simp)
    revert hle
    decide
  obtain ⟨⟨c, hc, -, hsorted, hagain⟩, verdict, hverdict, hiff⟩ := isCanonical_iff_sortedEverywhere o v hv
  refine ⟨hv, ?_, c, hc, hsorted, hagain⟩
  rw [hverdict, Bool.eq_false_iff.mpr fun h => hunsorted (hiff.mp h)]

end CanonJson
