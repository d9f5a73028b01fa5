import CanonJson.Proofs.Layout.RoundTrip
import CanonJson.Proofs.Number.Shortest
import CanonJson.Proofs.Order.Arranged
import CanonJson.Proofs.Plain.Number
/-!
# What data become is valid

Whichever data are accepted, the numbers of their tree are number text: integers, decimals and finite binary numbers
are each written as such. Its strings and keys are the texts of the data, in the order and number that the data hold
them. So the tree can be printed, and it stands for a document unless the data hold a surrogate.
-/

namespace CanonJson

open Grammar (Number)

namespace Value

/-! ### Trees and their texts -/

/-- The text is a string or a key of the tree. -/
def Mentions (v : Value) (t : Text) : Prop :=
  Occurs (.string t) v ∨ ∃ members, Occurs (.object members) v ∧ t ∈ members.map Prod.fst

theorem mentions_string {s t : Text} : (string s).Mentions t ↔ t = s := by
  constructor
  · rintro (⟨⟨⟩⟩ | ⟨members, ⟨⟩, -⟩)
    rfl
  · rintro rfl
    exact .inl .self

theorem Mentions.of_occurs {u v : Value} {t : Text} (h : u.Mentions t) (hu : Occurs u v) : v.Mentions t := by
  rcases h with h | ⟨members, h, ht⟩
  · exact .inl (h.trans hu)
  · exact .inr ⟨members, h.trans hu, ht⟩

theorem mentions_array {items : List Value} {t : Text} (h : (array items).Mentions t) :
    ∃ v ∈ items, v.Mentions t := by
  rcases h with ⟨_ | ⟨hv, h⟩⟩ | ⟨members, _ | ⟨hv, h⟩, ht⟩
  · exact ⟨_, hv, .inl h⟩
  · exact ⟨_, hv, .inr ⟨members, h, ht⟩⟩

theorem mentions_object {members : List (Text × Value)} {t : Text} (h : (object members).Mentions t) :
    t ∈ members.map Prod.fst ∨ ∃ m ∈ members, m.2.Mentions t := by
  rcases h with ⟨_ | _ | ⟨hm, h⟩⟩ | ⟨members', _ | _ | ⟨hm, h⟩, ht⟩
  · exact .inr ⟨_, hm, .inl h⟩
  · exact .inl ht
  · exact .inr ⟨_, hm, .inr ⟨members', h, ht⟩⟩

/-- A tree stands for a document if it can be printed and none of its texts holds a surrogate. -/
theorem wellFormed_of_printable {v : Value} (hv : v.Printable) (htexts : ∀ t, v.Mentions t → t.SurrogateFree) :
    v.WellFormed := by
  induction v using childInduction with
  | null => trivial
  | bool b => trivial
  | number t => exact hv
  | string t => exact htexts t (mentions_string.mpr rfl)
  | array items ih =>
    rw [printable_array] at hv
    exact wellFormed_array.mpr fun v hmem => ih v hmem (hv v hmem) fun t ht => htexts t (ht.of_occurs (.item hmem .self))
  | object members ih =>
    rw [printable_object] at hv
    refine wellFormed_object.mpr fun m hm => ⟨?_, ?_⟩
    · exact htexts m.1 (.inr ⟨members, .self, List.mem_map_of_mem hm⟩)
    · exact ih m hm (hv m hm) fun t ht => htexts t (ht.of_occurs (.member hm .self))
  | foreign d => exact hv.elim

theorem Printable.of_occurs {u v : Value} (hv : v.Printable) (h : Occurs u v) : u.Printable := by
  induction h with
  | self => exact hv
  | item hmem _ ih => exact ih (printable_array.mp hv _ hmem)
  | member hm _ ih => exact ih (printable_object.mp hv _ hm)

end Value

/-! ### Scalars -/

/-- The tree of a scalar is a constant, number text, or the text that the scalar is. -/
theorem Scalar.cases_toValue {s : Scalar} {v : Value} (h : s.toValue = .ok v) :
    v = .null ∨ (∃ b, v = .bool b) ∨ (∃ t, v = .number t ∧ Number t) ∨ ∃ t, s = .text t ∧ v = .string t := by
  cases s with
  | none => exact .inl (Except.ok.inj h).symm
  | bool b => exact .inr (.inl ⟨b, (Except.ok.inj h).symm⟩)
  | int n =>
    rcases toValue_int n with hn | hn
    · exact .inr (.inr (.inl ⟨_, Except.ok.inj (h.symm.trans hn),
        NumberParts.number_of_denotes (Value.numberDenotes_textOfInt n)⟩))
    · cases h.symm.trans hn
  | float x =>
    rw [toValue] at h
    split at h
    · rename_i hfinite
      exact .inr (.inr (.inl ⟨_, (Except.ok.inj h).symm, Binary64.number_toText hfinite⟩))
    · cases h
  | decimal d =>
    rw [toValue] at h
    split at h
    · obtain rfl := Except.ok.inj h
      cases d with
      | finite negative coefficient exponent =>
        exact .inr (.inr (.inl ⟨_, rfl,
          NumberParts.number_of_denotes (Decimal.numberDenotes_toText negative coefficient exponent)⟩))
      | infinite negative => cases ‹Decimal.isFinite _ = true›
      | nan negative signaling payload => cases ‹Decimal.isFinite _ = true›
    · cases h
  | text t => exact .inr (.inr (.inr ⟨t, rfl, (Except.ok.inj h).symm⟩))
  | bytes bs => cases h
  | other name => cases h

namespace Graph

variable {g : Graph} {x : Item (Fin g.size)} {v : Value}

theorem holds_key {i : Fin g.size} {entries : List (Item (Fin g.size) × Item (Fin g.size))}
    (h : g.cellAt i = .table entries) {x : Item (Fin g.size)} (hx : x ∈ entries.map Prod.fst) : g.Holds i x := by
  rw [Holds, h]
  exact List.mem_append_left _ hx

/-! ### Graphs -/

theorem exists_holds_of_reaches {i : Fin g.size} {s : Scalar} (h : g.Reaches (.cell i) (.scalar s)) :
    ∃ j, g.Holds j (.scalar s) := by
  generalize hx : Item.cell i = x at h
  generalize hy : Item.scalar s = y at h
  induction h generalizing i with
  | refl x => cases hx.trans hy.symm
  | @step j x y hold rest ih =>
    cases x with
    | scalar s' =>
      cases rest
      exact ⟨j, hold⟩
    | cell k => exact ih rfl hy

/-- What an item unfolds to can be printed. -/
theorem Unfolds.printable (h : g.Unfolds x v) : v.Printable := by
  induction h with
  | scalar hs =>
    rcases Scalar.cases_toValue hs with rfl | ⟨b, rfl⟩ | ⟨t, rfl, ht⟩ | ⟨t, -, rfl⟩
    · trivial
    · trivial
    · exact isNumeral_iff.mpr ht
    · trivial
  | array hcell hlength _ ih =>
    refine Value.printable_array.mpr fun v hv => ?_
    obtain ⟨k, x, hk, hx⟩ := exists_place hlength.symm hv
    exact ih k x v hx hk
  | object hcell hkeys hlength _ ih =>
    refine Value.printable_object.mpr fun m hm => ?_
    obtain ⟨k, x, hk, hx⟩ := exists_place hlength.symm (List.of_mem_zip hm).2
    exact ih k x m.2 hx hk

/-- The strings and keys of what an item unfolds to are texts that are reached from the item. -/
theorem Unfolds.reaches_text (h : g.Unfolds x v) {t : Text} (ht : v.Mentions t) : g.Reaches x (.scalar (.text t)) := by
  induction h with
  | scalar hs =>
    rcases Scalar.cases_toValue hs with rfl | ⟨b, rfl⟩ | ⟨u, rfl, -⟩ | ⟨u, rfl, rfl⟩
    · rcases ht with ⟨⟨⟩⟩ | ⟨members, ⟨⟩, -⟩
    · rcases ht with ⟨⟨⟩⟩ | ⟨members, ⟨⟩, -⟩
    · rcases ht with ⟨⟨⟩⟩ | ⟨members, ⟨⟩, -⟩
    · obtain rfl := Value.mentions_string.mp ht
      exact .refl _
  | array hcell hlength _ ih =>
    obtain ⟨v, hv, ht⟩ := Value.mentions_array ht
    obtain ⟨k, x, hk, hx⟩ := exists_place hlength.symm hv
    exact .step (holds_item hcell (List.mem_of_getElem? hx)) (ih k x v hx hk ht)
  | @object i entries names vs hcell hkeys hlength _ ih =>
    rcases Value.mentions_object ht with ht | ⟨m, hm, ht⟩
    · obtain ⟨m, hm, rfl⟩ := List.mem_map.mp ht
      have hkey : Item.scalar (.text m.1) ∈ entries.map Prod.fst := by
        rw [hkeys]
        exact List.mem_map.mpr ⟨m.1, (List.of_mem_zip hm).1, rfl⟩
      exact (holds_key hcell hkey).reaches
    · obtain ⟨k, x, hk, hx⟩ := exists_place hlength.symm (List.of_mem_zip hm).2
      exact .step (holds_value hcell (List.mem_of_getElem? hx)) (ih k x m.2 hx hk ht)

end Graph

open CanonJson.Graph

/-- Whichever data are accepted, every number of their tree is JSON number text, which has an exact value and a normalized
spelling. The tree can be put in canonical order by any options, except in the order of UTF-16 if a key holds a
surrogate. And if no text of the data holds a surrogate, then printing the tree with its numbers as they are and reading
the octets back, under any limit that the tree keeps, returns the tree, unless the indentation cannot be made. -/
theorem toValue_reparsed (g : Graph) (v : Value) (h : g.toValue = .ok v) :
    (∀ t, Value.Occurs (.number t) v →
      Number t ∧ ∃ p, NumberParts.ofText? t = some p ∧ normalizeNumber? t = some p.toText)
    ∧ (∀ o : SortOptions, (∃ u, canonicalize o v = .ok u) ↔
      (o.sortKeys = true → o.keyOrder = .utf16 →
        ∀ members, Value.Occurs (.object members) v → ∀ m ∈ members, m.1.SurrogateFree))
    ∧ ((∀ t, g.Reaches g.root (.scalar (.text t)) → t.SurrogateFree) →
      ∀ o : LayoutOptions, o.numbers = .verbatim → ∀ limit, v.depth ≤ limit →
        (o.indent.Fits → ∃ bs, renderBytes o v = .ok bs ∧ parse limit (.bytes bs) = .ok v)
        ∧ (∀ e, checkIndent o.indent = .error e → renderBytes o v = .error e)
        ∧ ∀ count, o.indent = .spaces count → indexBound ≤ count → renderBytes o v = .error .countTooLarge) := by
  have hunfolds := unfolds_of_toValue h
  refine ⟨?_, ?_, ?_⟩
  · intro t ht
    have hnumeral : isNumeral t = true := hunfolds.printable.of_occurs ht
    obtain ⟨p, hp, -⟩ := exists_reduced_of_isNumeral hnumeral
    exact ⟨isNumeral_iff.mp hnumeral, p, hp, by rw [normalizeNumber?, hp, Option.map_some]⟩
  · intro o
    rw [canonicalize_isOk_iff hunfolds.printable]
    constructor
    · intro hkeys hsort horder members hmembers m hm
      exact hkeys members hmembers m hm hsort horder
    · intro hkeys members hmembers m hm hsort horder
      exact hkeys hsort horder members hmembers m hm
  · intro htexts o hnumbers limit hdepth
    have hv := Value.wellFormed_of_printable hunfolds.printable fun t ht => htexts t (hunfolds.reaches_text ht)
    have hunfit := fun e (h : checkIndent o.indent = .error e) => renderBytes_eq_error h v
    refine ⟨fun hindent => ⟨_, renderBytes_eq_ok hindent hv, ?_⟩, hunfit, fun count hspaces hcount =>
      hunfit _ (hspaces ▸ checkIndent_of_index hcount)⟩
    rw [parse_documentShape o hv hdepth, Layout.shownNumber_verbatim hnumbers, Value.mapNumbers_id]

/-- A table shares a tuple with a list that holds a small binary number and a decimal in exponent notation. -/
theorem toValue_reparsed_shared :
    let k : Text := Text.ofChars ['k']
    let face : Text := [CodePoint.ofNat 0x1F600]
    let g : Graph := ⟨3, #v[.table [(.scalar (.text k), .cell 1), (.scalar (.text face), .cell 2)],
      .list [.scalar (.float ⟨0x3E7AD7F29ABCAF48⟩), .scalar (.decimal (.finite false 1 10)), .cell 2],
      .tuple [.scalar (.int (-7)), .scalar (.text face)]], .cell 0⟩
    let d : Datum := .table [(.scalar (.text k), .list [.scalar (.float ⟨0x3E7AD7F29ABCAF48⟩),
      .scalar (.decimal (.finite false 1 10)), .tuple [.scalar (.int (-7)), .scalar (.text face)]]),
      (.scalar (.text face), .tuple [.scalar (.int (-7)), .scalar (.text face)])]
    let pair : Value := .array [.number (Text.ofChars ['-', '7']), .string face]
    let v : Value := .object [(k, .array [.number (Text.ofChars ['1', 'e', '-', '0', '7']),
      .number (Text.ofChars ['1', 'E', '+', '1', '0']), pair]), (face, pair)]
    let o : LayoutOptions := { indent := .tab, ascii := true }
    g.expand? = some d ∧ g.toValue = .ok v ∧ (∀ t, g.Reaches g.root (.scalar (.text t)) → t.SurrogateFree)
      ∧ o.numbers = .verbatim ∧ v.depth ≤ 3 ∧ o.indent.Fits ∧ (∃ bs, renderBytes o v = .ok bs ∧ parse 3 (.bytes bs) = .ok v)
      ∧ Number (Text.ofChars ['1', 'e', '-', '0', '7']) := by
  intro k face g d pair v o
  have hfloat : (Scalar.float ⟨0x3E7AD7F29ABCAF48⟩).toValue
      = .ok (.number (Text.ofChars ['1', 'e', '-', '0', '7'])) := by
    have htext : (⟨0x3E7AD7F29ABCAF48⟩ : Binary64).toText = Text.ofChars ['1', 'e', '-', '0', '7'] := by
      decide +kernel
    rw [← htext]
    rfl
  have hint : (Scalar.int (-7)).toValue = .ok (.number (Text.ofChars ['-', '7'])) :=
    Scalar.toValue_of_lt (by decide +kernel)
  have hd : g.expand? = some d := rfl
  have htoValue : g.toValue = .ok v := by
    refine toValue_of_expand? hd ?_
    simp only [d, Datum.toValue, Datum.itemsToValues, Datum.entriesToValues, hfloat, hint]
    rfl
  have htexts : ∀ t, g.Reaches g.root (.scalar (.text t)) → t.SurrogateFree := by
    intro t ht
    obtain ⟨i, hi⟩ := exists_holds_of_reaches ht
    have hmem : t = k ∨ t = face := by
      rcases i with ⟨_ | _ | _ | i, hlt⟩
      · change _ ∈ [Item.scalar (.text k), .scalar (.text face), .cell 1, .cell 2] at hi
        simpa using hi
      · change _ ∈ [Item.scalar (.float ⟨0x3E7AD7F29ABCAF48⟩), .scalar (.decimal (.finite false 1 10)), .cell 2] at hi
        simp at hi
      · change _ ∈ [Item.scalar (.int (-7)), .scalar (.text face)] at hi
        exact .inr (by simpa using hi)
      · exact absurd hlt (Nat.not_lt.mpr (Nat.le_add_left 3 i))
    rcases hmem with rfl | rfl <;> decide
  have hdepth : v.depth ≤ 3 := by decide
  have hindent : o.indent.Fits := by decide
  obtain ⟨hnumbers, -, hreparsed⟩ := toValue_reparsed g v htoValue
  obtain ⟨hparse, -⟩ := hreparsed htexts o rfl 3 hdepth
  have hnumber := hnumbers (Text.ofChars ['1', 'e', '-', '0', '7'])
    (.member List.mem_cons_self (.item List.mem_cons_self .self))
  exact ⟨hd, htoValue, htexts, rfl, hdepth, hindent, hparse hindent, hnumber.1⟩

/-- Zero is accepted, but with this indentation nothing is printed. -/
theorem not_toValue_reparsed_of_countTooLarge :
    let g : Graph := ⟨0, #v[], .scalar (.int 0)⟩
    let v : Value := .number (Text.ofChars ['0'])
    let o : LayoutOptions := { indent := .spaces 0x8000000000000000 }
    g.toValue = .ok v ∧ (∀ t, g.Reaches g.root (.scalar (.text t)) → t.SurrogateFree) ∧ o.numbers = .verbatim
      ∧ v.depth ≤ 1 ∧ ¬ ∃ bs, renderBytes o v = .ok bs ∧ parse 1 (.bytes bs) = .ok v := by
  intro g v o
  have hzero : (Scalar.int 0).toValue = .ok v := Scalar.toValue_of_lt (Digits.pow_ten_pos Digits.limit)
  have htoValue : g.toValue = .ok v := toValue_of_unfolds (.scalar hzero)
  refine ⟨htoValue, ?_, rfl, by decide, ?_⟩
  · rintro t ⟨⟩
  · rintro ⟨bs, hbs, -⟩
    have hindent : checkIndent (.spaces 0x8000000000000000) = .error .countTooLarge := checkIndent_of_index (by decide)
    rw [renderBytes_eq_error (o := o) hindent] at hbs
    cases hbs

end CanonJson
