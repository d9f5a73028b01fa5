import CanonJson.Proofs.Plain.Meaning
import CanonJson.Proofs.Plain.Number
/-!
# From data to trees and back

Data of the kinds that trees have come back unchanged: each list as an array and each table as an object whose keys
are there once, in the same order. The other way round, a tree comes back with what a reader of plain data cannot see
left out: of a repeated key the last value stays, at the place of the first, and numbers may be spelled differently.
-/

namespace CanonJson

open Value

namespace Datum

/-! ### Data that have a tree -/

/-- The data become a tree. -/
def HasTree (d : Datum) : Prop :=
  ∃ v, d.toValue = .ok v

def tree (d : Datum) : Value :=
  match d.toValue with
  | .ok v => v
  | .error _ => .null

theorem tree_of_toValue {d : Datum} {v : Value} (h : d.toValue = .ok v) : d.tree = v := by
  rw [tree, h]

theorem HasTree.toValue_eq {d : Datum} (h : d.HasTree) : d.toValue = .ok d.tree := by
  obtain ⟨v, hv⟩ := h
  rw [tree_of_toValue hv, hv]

theorem itemsToValues_eq_ok {items : List Datum} (h : ∀ d ∈ items, d.HasTree) :
    itemsToValues items = .ok (items.map tree) := by
  induction items with
  | nil => rfl
  | cons d items ih =>
    obtain ⟨hd, hitems⟩ := List.forall_mem_cons.mp h
    rw [itemsToValues, hd.toValue_eq, ih hitems]
    rfl

theorem toValue_list {items : List Datum} (h : ∀ d ∈ items, d.HasTree) :
    (list items).toValue = .ok (.array (items.map tree)) := by
  rw [toValue, itemsToValues_eq_ok h]
  rfl

/-- A table with the given entries, whose keys are texts. -/
def ofEntries (entries : List (Text × Datum)) : Datum :=
  .table (entries.map fun e => (.scalar (.text e.1), e.2))

theorem toValue_ofEntries {entries : List (Text × Datum)} (h : ∀ e ∈ entries, e.2.HasTree) :
    (ofEntries entries).toValue = .ok (.object (entries.map fun e => (e.1, e.2.tree))) := by
  have hkeys : (entries.map fun e => (Datum.scalar (.text e.1), e.2)).mapM (fun e => keyText e.1)
      = .ok (entries.map Prod.fst) := by
    rw [List.mapM_map]
    exact mapM_eq_ok fun e _ => rfl
  have hvalues : entriesToValues (entries.map fun e => (Datum.scalar (.text e.1), e.2))
      = .ok (entries.map fun e => e.2.tree) := by
    rw [entriesToValues_eq, List.map_map, itemsToValues_eq_ok, List.map_map]
    · rfl
    · intro d hd
      obtain ⟨e, he, rfl⟩ := List.mem_map.mp hd
      exact h e he
  rw [ofEntries, toValue, hkeys, hvalues, ok_bind, ok_bind, List.zip_map']
  rfl

/-! ### Data that come back -/

/-- Data of the kinds that trees have: nothing, truth values, integers of at most 4300 digits, texts, and lists and
tables of such data, in which each key is a text and there once. -/
inductive Native : Datum → Prop where
  | none : Native (.scalar .none)
  | bool (b : Bool) : Native (.scalar (.bool b))
  | int (n : Int) (short : (Text.ofNat n.natAbs).length ≤ 4300) : Native (.scalar (.int n))
  | text (t : Text) : Native (.scalar (.text t))
  | list (items : List Datum) (native : ∀ d ∈ items, Native d) : Native (.list items)
  | table (entries : List (Text × Datum)) (once : (entries.map Prod.fst).Nodup)
      (native : ∀ e ∈ entries, Native e.2) : Native (ofEntries entries)

/-- The data become a tree, and the tree becomes the data again. -/
def ComesBack (d : Datum) : Prop :=
  ∃ v, d.toValue = .ok v ∧ v.toDatum = .ok d

theorem ComesBack.hasTree {d : Datum} (h : d.ComesBack) : d.HasTree := by
  obtain ⟨v, hv, -⟩ := h
  exact ⟨v, hv⟩

theorem ComesBack.toDatum_tree {d : Datum} (h : d.ComesBack) : d.tree.toDatum = .ok d := by
  obtain ⟨v, hv, hd⟩ := h
  rwa [tree_of_toValue hv]

theorem ComesBack.convertible {d : Datum} (h : d.ComesBack) : d.tree.Convertible :=
  ⟨d, h.toDatum_tree⟩

theorem ComesBack.plain_tree {d : Datum} (h : d.ComesBack) : d.tree.plain = d :=
  plain_of_toDatum h.toDatum_tree

theorem comesBack_list {items : List Datum} (h : ∀ d ∈ items, d.ComesBack) : (list items).ComesBack := by
  refine ⟨_, toValue_list fun d hd => (h d hd).hasTree, ?_⟩
  have hplain : (items.map tree).map plain = items.map id := by
    rw [List.map_map]
    exact List.map_congr_left fun d hd => (h d hd).plain_tree
  rw [toDatum_array, hplain, List.map_id]
  intro v hv
  obtain ⟨d, hd, rfl⟩ := List.mem_map.mp hv
  exact (h d hd).convertible

theorem comesBack_ofEntries {entries : List (Text × Datum)} (once : (entries.map Prod.fst).Nodup)
    (h : ∀ e ∈ entries, e.2.ComesBack) : (ofEntries entries).ComesBack := by
  refine ⟨_, toValue_ofEntries fun e he => (h e he).hasTree, ?_⟩
  have hplain : (entries.map fun e => (e.1, e.2.tree)).map (fun m => (m.1, m.2.plain)) = entries.map id := by
    rw [List.map_map]
    exact List.map_congr_left fun e he => Prod.ext rfl (h e he).plain_tree
  rw [toDatum_object, hplain, List.map_id, tableEntries, collapse_of_nodup once]
  · rfl
  · intro m hm
    obtain ⟨e, he, rfl⟩ := List.mem_map.mp hm
    exact (h e he).convertible

theorem Native.comesBack {d : Datum} (h : d.Native) : d.ComesBack := by
  induction h with
  | none => exact ⟨.null, rfl, Algebra.walk_eq_fold ..⟩
  | bool b => exact ⟨.bool b, rfl, Algebra.walk_eq_fold ..⟩
  | int n short =>
    have hvalue := @toValue_signed_of_short (decide (n < 0)) _ (NumberParts.integerPart_textOfNat n.natAbs) short
    rw [signedValue_textOfNat] at hvalue
    exact ⟨_, hvalue, toDatum_textOfInt n⟩
  | text t => exact ⟨.string t, rfl, Algebra.walk_eq_fold ..⟩
  | list items _ ih => exact comesBack_list ih
  | table entries once _ ih => exact comesBack_ofEntries once ih

end Datum

namespace Value

/-! ### Trees that come back -/

/-- The second tree is the first with the repeated keys of its objects collapsed, each at the place where it was first
and with what became of its last value, and with numbers that may be spelled differently. -/
inductive CollapsesTo : Value → Value → Prop where
  | null : CollapsesTo .null .null
  | bool (b : Bool) : CollapsesTo (.bool b) (.bool b)
  | number (t u : Text) (p : NumberParts) (parts : NumberParts.ofText? t = some p)
      (parts' : NumberParts.ofText? u = some p) : CollapsesTo (.number t) (.number u)
  | string (t : Text) : CollapsesTo (.string t) (.string t)
  | array (as bs : List Value) (length : as.length = bs.length)
      (items : ∀ (i : Nat) a b, as[i]? = some a → bs[i]? = some b → CollapsesTo a b) :
      CollapsesTo (.array as) (.array bs)
  | object (ms ns : List (Text × Value)) (keys : ns.map Prod.fst = (ms.map Prod.fst).eraseDups)
      (values : ∀ k v u, lastUnder k ms = some v → (k, u) ∈ ns → CollapsesTo v u) :
      CollapsesTo (.object ms) (.object ns)

/-- The tree becomes data, and these become the tree collapsed. -/
def ComesBack (v : Value) : Prop :=
  ∃ d u, v.toDatum = .ok d ∧ d.toValue = .ok u ∧ CollapsesTo v u

theorem ComesBack.convertible {v : Value} (h : v.ComesBack) : v.Convertible := by
  obtain ⟨d, -, hd, -⟩ := h
  exact ⟨d, hd⟩

theorem ComesBack.hasTree {v : Value} (h : v.ComesBack) : v.plain.HasTree := by
  obtain ⟨d, u, hd, hu, -⟩ := h
  rw [plain_of_toDatum hd]
  exact ⟨u, hu⟩

theorem ComesBack.collapsesTo {v : Value} (h : v.ComesBack) : CollapsesTo v v.plain.tree := by
  obtain ⟨d, u, hd, hu, hcollapses⟩ := h
  rwa [plain_of_toDatum hd, Datum.tree_of_toValue hu]

theorem comesBack_integer {t : Text} (ht : Grammar.Number t) (hint : isIntegerText t = true)
    (hshort : t.countP CodePoint.isDigit ≤ 4300) : (number t).ComesBack := by
  obtain ⟨negative, ds, hds, rfl⟩ := exists_signed_of_isIntegerText ht hint
  rw [countP_signed (Numeral.integerPart_iff.mp hds).1] at hshort
  obtain ⟨p, hp, hp'⟩ := @parts_textOfInt negative ds hds
  have hvalue := @toValue_signed_of_short negative ds hds hshort
  exact ⟨_, _, toDatum_signed hds, hvalue, .number _ _ p hp hp'⟩

theorem comesBack_decimal {t : Text} (ht : Grammar.Number t) (hint : isIntegerText t = false) {d : Decimal}
    (hd : Decimal.ofText t = .ok d) : (number t).ComesBack := by
  obtain ⟨hfinite, -, hparts⟩ := Decimal.parts_toText_of_ofText ht hd
  obtain ⟨p, hp, -⟩ := NumberParts.exists_reduced_of_number ht
  have hdatum : (number t).toDatum = .ok (.scalar (.decimal d)) := by
    rw [toDatum_number, numberDatum, hint, numberDecimal, hd]
    rfl
  exact ⟨_, _, hdatum, if_pos hfinite, .number _ _ p hp (hparts.trans hp)⟩

theorem comesBack_array {items : List Value} (h : ∀ v ∈ items, v.ComesBack) : (array items).ComesBack := by
  have htrees : ∀ d ∈ items.map plain, d.HasTree := by
    intro d hd
    obtain ⟨v, hv, rfl⟩ := List.mem_map.mp hd
    exact (h v hv).hasTree
  refine ⟨_, _, toDatum_array fun v hv => (h v hv).convertible, Datum.toValue_list htrees, ?_⟩
  rw [List.map_map]
  refine .array _ _ (by simp) fun i a b ha hb => ?_
  rw [List.getElem?_map, ha] at hb
  obtain rfl := Option.some.inj hb
  exact (h a (List.mem_of_getElem? ha)).collapsesTo

theorem comesBack_object {members : List (Text × Value)} (h : ∀ m ∈ members, m.2.ComesBack) :
    (object members).ComesBack := by
  -- What the table holds under a key is what became of the last value of the key.
  have hlast : ∀ k d, (k, d) ∈ collapse (members.map fun m => (m.1, m.2.plain)) →
      ∃ v, lastUnder k members = some v ∧ v.plain = d ∧ v.ComesBack := by
    intro k d hmem
    rw [mem_collapse, lastUnder_map, Option.map_eq_some_iff] at hmem
    obtain ⟨v, hv, rfl⟩ := hmem
    exact ⟨v, hv, rfl, h _ (mem_of_lastUnder hv)⟩
  have htrees : ∀ e ∈ collapse (members.map fun m => (m.1, m.2.plain)), e.2.HasTree := by
    intro e he
    obtain ⟨v, -, hplain, hback⟩ := hlast e.1 e.2 he
    rw [← hplain]
    exact hback.hasTree
  refine ⟨_, _, toDatum_object fun m hm => (h m hm).convertible, Datum.toValue_ofEntries htrees, .object _ _ ?_ ?_⟩
  · rw [List.map_map]
    exact (keys_collapse _).trans (by rw [List.map_map]; rfl)
  · intro k v u hv hu
    obtain ⟨e, he, heq⟩ := List.mem_map.mp hu
    obtain ⟨rfl, rfl⟩ := Prod.mk.inj heq
    obtain ⟨v', hv', hplain, hback⟩ := hlast e.1 e.2 he
    obtain rfl := Option.some.inj (hv.symm.trans hv')
    rw [← hplain]
    exact hback.collapsesTo

theorem comesBack_of_numbers {v : Value} (hv : v.WellFormed)
    (hshort : ∀ t, Occurs (.number t) v → isIntegerText t = true → t.countP CodePoint.isDigit ≤ 4300)
    (hdecimal : ∀ t, Occurs (.number t) v → isIntegerText t = false → ∃ d, Decimal.ofText t = .ok d) :
    v.ComesBack := by
  induction v using childInduction with
  | null => exact ⟨_, _, Algebra.walk_eq_fold .., rfl, .null⟩
  | bool b => exact ⟨_, _, Algebra.walk_eq_fold .., rfl, .bool b⟩
  | number t =>
    have ht := isNumeral_iff.mp hv
    cases hint : isIntegerText t with
    | true => exact comesBack_integer ht hint (hshort t .self hint)
    | false =>
      obtain ⟨d, hd⟩ := hdecimal t .self hint
      exact comesBack_decimal ht hint hd
  | string t => exact ⟨_, _, Algebra.walk_eq_fold .., rfl, .string t⟩
  | array items ih =>
    refine comesBack_array fun u hu => ih u hu (wellFormed_array.mp hv u hu) ?_ ?_
    · exact fun t ht => hshort t (.item hu ht)
    · exact fun t ht => hdecimal t (.item hu ht)
  | object members ih =>
    refine comesBack_object fun m hm => ih m hm (wellFormed_object.mp hv m hm).2 ?_ ?_
    · exact fun t ht => hshort t (.member hm ht)
    · exact fun t ht => hdecimal t (.member hm ht)
  | foreign d => exact hv.elim

end Value

/-- Data of the kinds that trees have, nested to any depth, become a tree and then the same data again, with the same
types, items and entries in their order. The walk through a graph that expands to the data finds this tree as well,
whatever is shared in it. -/
theorem toDatum_toValue (d : Datum) (hd : d.Native) :
    ∃ v, d.toValue = .ok v ∧ (∀ g : Graph, g.expand? = some d → g.toValue = .ok v) ∧ v.toDatum = .ok d := by
  obtain ⟨v, hv, hback⟩ := hd.comesBack
  exact ⟨v, hv, fun g hg => Graph.toValue_of_expand? hg hv, hback⟩

/-- A list that holds one table twice. -/
theorem toDatum_toValue_shared :
    let a : Text := Text.ofChars ['a']
    let b : Text := Text.ofChars ['b']
    let g : Graph := ⟨2, #v[.list [.cell 1, .scalar (.int (-5)), .cell 1],
      .table [(.scalar (.text b), .scalar .none), (.scalar (.text a), .scalar (.text b))]], .cell 0⟩
    let entries : List (Text × Datum) := [(b, .scalar .none), (a, .scalar (.text b))]
    let d : Datum := .list [.ofEntries entries, .scalar (.int (-5)), .ofEntries entries]
    d.Native ∧ g.expand? = some d ∧ ∃ v, g.toValue = .ok v ∧ v.toDatum = .ok d := by
  intro a b g entries d
  have htable : (Datum.ofEntries entries).Native := by
    refine .table entries (by decide) fun e he => ?_
    rcases List.mem_cons.mp he with rfl | he
    · exact .none
    · obtain rfl := List.mem_singleton.mp he
      exact .text b
  have hd : d.Native := by
    refine .list _ fun e he => ?_
    simp only [List.mem_cons, List.not_mem_nil, or_false] at he
    rcases he with rfl | rfl | rfl
    · exact htable
    · exact .int (-5) (by decide)
    · exact htable
  obtain ⟨v, -, hgraph, hback⟩ := toDatum_toValue d hd
  exact ⟨hd, rfl, v, hgraph g rfl, hback⟩

/-- A tree of JSON values whose integer texts have at most 4300 digits and whose other number texts are decimals in
range becomes data, and the data become a tree again: the same one with repeated keys collapsed and each number
spelled so that it has the same parts. The walk through any graph that expands to the data finds that tree. -/
theorem toValue_toDatum_collapses (v : Value) (hv : v.WellFormed)
    (hshort : ∀ t, Occurs (.number t) v → isIntegerText t = true → t.countP CodePoint.isDigit ≤ 4300)
    (hdecimal : ∀ t, Occurs (.number t) v → isIntegerText t = false → ∃ d, Decimal.ofText t = .ok d) :
    ∃ d u, v.toDatum = .ok d ∧ d.toValue = .ok u ∧ (∀ g : Graph, g.expand? = some d → g.toValue = .ok u)
      ∧ CollapsesTo v u := by
  obtain ⟨d, u, hd, hu, hcollapses⟩ := comesBack_of_numbers hv hshort hdecimal
  exact ⟨d, u, hd, hu, fun g hg => Graph.toValue_of_expand? hg hu, hcollapses⟩

/-- A repeated key, a negative zero and a number that is respelled. -/
theorem toValue_toDatum_collapses_repeated :
    let a : Text := Text.ofChars ['a']
    let b : Text := Text.ofChars ['b']
    let zero : Text := Text.ofChars ['-', '0']
    let large : Text := Text.ofChars ['1', 'e', '1', '0']
    let v : Value := .object [(b, .bool true), (a, .array [.number zero]), (b, .number large)]
    v.WellFormed ∧ ∃ d u, v.toDatum = .ok d ∧ d.toValue = .ok u ∧ CollapsesTo v u := by
  intro a b zero large v
  have ha : a.SurrogateFree := by decide
  have hb : b.SurrogateFree := by decide
  have hzero : isNumeral zero = true := by decide
  have hlarge : isNumeral large = true := by decide
  have hv : v.WellFormed := ⟨hb, trivial, ha, ⟨hzero, trivial⟩, hb, hlarge, trivial⟩
  have hnumbers : ∀ t, Occurs (.number t) v → t = zero ∨ t = large := by
    intro t ht
    change Occurs (.number t) (.object [(b, .bool true), (a, .array [.number zero]), (b, .number large)]) at ht
    obtain _ | _ | ⟨hm, h⟩ := ht
    simp only [List.mem_cons, List.not_mem_nil, or_false] at hm
    rcases hm with rfl | rfl | rfl
    · cases h
    · obtain _ | ⟨hitem, h⟩ := h
      obtain rfl := List.mem_singleton.mp hitem
      cases h
      exact .inl rfl
    · cases h
      exact .inr rfl
  have hshort : ∀ t, Occurs (.number t) v → isIntegerText t = true → t.countP CodePoint.isDigit ≤ 4300 := by
    intro t ht hint
    rcases hnumbers t ht with rfl | rfl
    · decide
    · cases hint
  have hdecimal : ∀ t, Occurs (.number t) v → isIntegerText t = false → ∃ d, Decimal.ofText t = .ok d := by
    intro t ht hint
    rcases hnumbers t ht with rfl | rfl
    · cases hint
    · exact ⟨.finite false 1 10, by decide⟩
  obtain ⟨d, u, hd, hu, -, hcollapses⟩ := toValue_toDatum_collapses v hv hshort hdecimal
  exact ⟨hv, d, u, hd, hu, hcollapses⟩

end CanonJson
