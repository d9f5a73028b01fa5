import CanonJson.Proofs.Failure
import CanonJson.Proofs.Plain.Meaning
import CanonJson.Proofs.Value.Foreign
/-!
# Objects that are no values are refused

Sorting, printing and converting all go through a tree from left to right, and an object that is no value stops
each of them at once. What they do to the nodes before it cannot stop them earlier: the parts of a well-formed
tree can be sorted and printed, also while the tree around them is still being worked on, and converted if their
numbers can. So it is always the first such object in document order whose type is named. Without any, neither of
them fails for the type of an object: the problems that are left are numbers that are none, surrogates in keys
and the size of the indentation, and sort keys of one rank have one type.
-/

namespace CanonJson

open Value (Occurs WellFormedApart foreigns foreigns_array foreigns_object foreigns_array_eq_nil
  foreigns_object_eq_nil not_occurs_foreign numberDatum plainAlgebra)

/-- Whether a problem is one about the type of an object. -/
def Problem.isTypeError : Problem → Bool
  | .sourceType _ => true
  | .foreignNode _ => true
  | .keyType _ => true
  | .datumType _ => true
  | .unhashable _ => true
  | .notOctets _ => true
  | .notOctet _ => true
  | .numberNotGiven => true
  | _ => false

/-- The problem is not about the type of an object. -/
def NoTypeError (e : Problem) : Prop :=
  e.isTypeError = false

/-! ### Printing -/

namespace Layout

variable {o : LayoutOptions}

/-- The objects of a piece that are no values. -/
def Piece.foreigns : Piece → List Datum
  | .text _ => []
  | .node v _ => v.foreigns

theorem foreigns_arrayPieces (level : Nat) (v : Value) (items : List Value) :
    (arrayPieces o level v items).flatMap Piece.foreigns = (Value.array (v :: items)).foreigns := by
  rw [foreigns_array]
  simp [arrayPieces, moreItems, Piece.foreigns, List.flatMap_assoc]

theorem foreigns_objectPieces (level : Nat) (m : Text × Value) (members : List (Text × Value)) :
    (objectPieces o level m members).flatMap Piece.foreigns = (Value.object (m :: members)).foreigns := by
  rw [foreigns_object]
  simp [objectPieces, moreMembers, Piece.foreigns, List.flatMap_assoc]

theorem occurs_of_mem_arrayPieces {level level' : Nat} {u v : Value} {items : List Value}
    (h : Piece.node u level' ∈ arrayPieces o level v items) : Occurs u (.array (v :: items)) := by
  have hmem : u ∈ v :: items := by
    simp only [arrayPieces, moreItems, List.mem_append, List.mem_cons, List.mem_flatMap, List.not_mem_nil, or_false,
      reduceCtorEq, false_or, Piece.node.injEq] at h
    rcases h with ⟨rfl, -⟩ | ⟨u', hu, rfl, -⟩
    · exact List.mem_cons_self
    · exact List.mem_cons_of_mem _ hu
  exact .item hmem .self

theorem occurs_of_mem_objectPieces {level level' : Nat} {u : Value} {m : Text × Value}
    {members : List (Text × Value)} (h : Piece.node u level' ∈ objectPieces o level m members) :
    Occurs u (.object (m :: members)) := by
  simp only [objectPieces, moreMembers, List.mem_append, List.mem_cons, List.mem_flatMap, List.not_mem_nil, or_false,
    reduceCtorEq, false_or, Piece.node.injEq] at h
  rcases h with ⟨rfl, -⟩ | ⟨n, hn, rfl, -⟩
  · exact .member List.mem_cons_self .self
  · exact .member (List.mem_cons_of_mem _ hn) .self

theorem leafText_of_apart {v : Value} (hv : v.WellFormedApart) :
    (∃ t, leafText o v = .ok t) ∨ ∃ d, v = .foreign d := by
  cases v with
  | null => exact .inl ⟨_, rfl⟩
  | bool b => cases b <;> exact .inl ⟨_, rfl⟩
  | number t => exact .inl ⟨_, numberText_eq_ok o (hv.numbers t .self)⟩
  | string t => exact .inl ⟨_, rfl⟩
  | array items => exact .inl ⟨_, rfl⟩
  | object members => exact .inl ⟨_, rfl⟩
  | foreign d => exact .inr ⟨d, rfl⟩

theorem foreigns_of_leafText {v : Value} {t : Text} (harray : ∀ u items, v ≠ .array (u :: items))
    (hobject : ∀ m members, v ≠ .object (m :: members)) (h : leafText o v = .ok t) : v.foreigns = [] := by
  cases v with
  | array items =>
    cases items with
    | nil => rfl
    | cons u items => exact absurd rfl (harray u items)
  | object members =>
    cases members with
    | nil => rfl
    | cons m members => exact absurd rfl (hobject m members)
  | foreign d => cases h
  | _ => rfl

theorem noTypeError_leafText {v : Value} (h : v.foreigns = []) :
    GivesOrFails (fun _ => True) NoTypeError (leafText o v) := by
  cases v with
  | bool b => cases b <;> trivial
  | number t =>
    rw [leafText, numberText]
    cases o.numbers with
    | verbatim => trivial
    | normalized => cases normalizeNumber? t <;> trivial
  | foreign d => cases h
  | _ => trivial

/-- The printer fails on the first foreign object of its pieces. -/
theorem renderPieces_of_foreign {ps : List Piece} {acc : Text} {d : Datum}
    (hps : ∀ u level, Piece.node u level ∈ ps → u.WellFormedApart)
    (hd : (ps.flatMap Piece.foreigns).head? = some d) :
    renderPieces o ps acc = .error (.foreignNode d.typeName) := by
  fun_induction renderPieces o ps acc with
  | case1 acc => cases hd
  | case2 acc t ps ih => exact ih (fun u level hu => hps u level (List.mem_cons_of_mem _ hu)) hd
  | case3 acc v items level ps ih =>
    refine ih ?_ ?_
    · intro u level' hu
      rcases List.mem_append.mp hu with hu | hu
      · exact (hps _ _ List.mem_cons_self).of_occurs (occurs_of_mem_arrayPieces hu)
      · exact hps u level' (List.mem_cons_of_mem _ hu)
    · rwa [List.flatMap_append, foreigns_arrayPieces]
  | case4 acc m members level ps ih =>
    refine ih ?_ ?_
    · intro u level' hu
      rcases List.mem_append.mp hu with hu | hu
      · exact (hps _ _ List.mem_cons_self).of_occurs (occurs_of_mem_objectPieces hu)
      · exact hps u level' (List.mem_cons_of_mem _ hu)
    · rwa [List.flatMap_append, foreigns_objectPieces]
  | case5 acc v level ps harray hobject e hleaf =>
    rcases leafText_of_apart (o := o) (hps v level List.mem_cons_self) with ⟨t, ht⟩ | ⟨d', rfl⟩
    · rw [ht] at hleaf
      cases hleaf
    · obtain rfl := Option.some.inj hd
      exact hleaf.symm
  | case6 acc v level ps harray hobject t hleaf ih =>
    refine ih (fun u level hu => hps u level (List.mem_cons_of_mem _ hu)) ?_
    rwa [List.flatMap_cons, Piece.foreigns, foreigns_of_leafText harray hobject hleaf, List.nil_append] at hd

theorem noTypeError_renderPieces {ps : List Piece} {acc : Text} (hps : ps.flatMap Piece.foreigns = []) :
    GivesOrFails (fun _ => True) NoTypeError (renderPieces o ps acc) := by
  fun_induction renderPieces o ps acc with
  | case1 acc => trivial
  | case2 acc t ps ih => exact ih hps
  | case3 acc v items level ps ih =>
    refine ih ?_
    rwa [List.flatMap_append, foreigns_arrayPieces]
  | case4 acc m members level ps ih =>
    refine ih ?_
    rwa [List.flatMap_append, foreigns_objectPieces]
  | case5 acc v level ps harray hobject e hleaf =>
    rw [List.flatMap_cons, List.append_eq_nil_iff] at hps
    have hproblem := noTypeError_leafText (o := o) hps.1
    rwa [hleaf] at hproblem
  | case6 acc v level ps harray hobject t hleaf ih =>
    rw [List.flatMap_cons, List.append_eq_nil_iff] at hps
    exact ih hps.2

end Layout

section Printing

variable {o : LayoutOptions} {v : Value}

theorem render_of_foreign (hindent : o.indent.Fits) (hv : v.WellFormedApart) {d : Datum}
    (hd : v.foreigns.head? = some d) : render o v = .error (.foreignNode d.typeName) := by
  have hpieces : Layout.renderPieces o [.node v 0] [] = .error (.foreignNode d.typeName) := by
    refine Layout.renderPieces_of_foreign ?_ ?_
    · intro u level hu
      obtain ⟨rfl, -⟩ := Layout.Piece.node.inj (List.mem_singleton.mp hu)
      exact hv
    · rwa [List.flatMap_singleton]
  rw [render, show checkIndent o.indent = .ok () from hindent, ok_bind, hpieces, error_bind]

theorem noTypeError_render (h : v.foreigns = []) : GivesOrFails (fun _ => True) NoTypeError (render o v) := by
  have hindent : GivesOrFails (fun _ => True) NoTypeError (checkIndent o.indent) := by
    cases hcheck : checkIndent o.indent with
    | ok _ => trivial
    | error p => rcases checkIndent_eq_error hcheck with rfl | ⟨rfl, -⟩ <;> rfl
  have hpieces : GivesOrFails (fun _ => True) NoTypeError (Layout.renderPieces o [.node v 0] []) :=
    Layout.noTypeError_renderPieces (by rwa [List.flatMap_singleton])
  exact hindent.bind fun _ _ => hpieces.bind fun _ _ => trivial

end Printing

/-! ### Sorting -/

section Sorting

variable {o : SortOptions}

theorem noTypeError_memberKey (order : KeyOrder) (k : Text) :
    GivesOrFails (fun _ => True) NoTypeError (memberKey order k) := by
  cases order with
  | codePoint => trivial
  | utf16 =>
    rw [memberKey]
    cases Utf16.encode k <;> trivial

theorem noTypeError_typedKey {v : Value} (h : v.foreigns = []) :
    GivesOrFails (fun _ => True) NoTypeError (TypedKey.ofValue v) := by
  cases v with
  | number t =>
    rw [TypedKey.ofValue]
    cases NumberParts.ofText? t <;> trivial
  | array items => exact (noTypeError_render h).bind fun _ _ => trivial
  | object members => exact (noTypeError_render h).bind fun _ _ => trivial
  | foreign d => cases h
  | _ => trivial

theorem noTypeError_elementKey (member : Text) {v : Value} (h : v.foreigns = []) :
    GivesOrFails (fun _ => True) NoTypeError (ElementKey.ofItem member v) := by
  cases v with
  | object members =>
    rw [ElementKey.ofItem, Value.lookup]
    cases hfind : members.find? fun m => m.1 = member with
    | none => trivial
    | some m =>
      have hm := foreigns_object_eq_nil.mp h m (List.mem_of_find?_eq_some hfind)
      have hrank : GivesOrFails (fun _ => True) NoTypeError (ElementKey.rank m.2) := by
        cases hvalue : m.2 with
        | foreign d =>
          rw [hvalue] at hm
          cases hm
        | _ => trivial
      exact hrank.bind fun _ _ => (noTypeError_typedKey hm).bind fun _ _ => trivial
  | _ => trivial

theorem givesOrFails_sortByKey {α κ ε : Type} {key : α → Except ε κ} {le : κ → κ → Bool} {l : List α} {Q : ε → Prop}
    (h : ∀ a ∈ l, GivesOrFails (fun _ => True) Q (key a)) :
    GivesOrFails (fun sorted => ∀ a ∈ sorted, a ∈ l) Q (sortByKey key le l) := by
  have hkeyed : GivesOrFails (fun keyed => ∀ b ∈ keyed, b.2 ∈ l) Q
      (l.mapM fun a => (do return (← key a, a) : Except ε (κ × α))) :=
    .mapM fun a ha => (h a ha).bind fun _ _ => ha
  refine hkeyed.bind fun keyed hmem a ha => ?_
  obtain ⟨b, hb, rfl⟩ := List.mem_map.mp ha
  exact hmem b (List.mem_mergeSort.mp hb)

/-- A tree without foreign objects is put in order without meeting one, and the result is without them. -/
theorem noTypeError_canonicalAlgebra {v : Value} (h : v.foreigns = []) :
    GivesOrFails (fun u => u.foreigns = []) NoTypeError ((canonicalAlgebra o).fold v) := by
  refine Algebra.givesOrFails_fold ?_ ?_ ?_ h
  · intro v hv
    cases v with
    | foreign d => cases hv
    | _ => exact hv
  · intro items hitems
    have hsorted : GivesOrFails (fun sorted => ∀ a ∈ sorted, a ∈ items) NoTypeError (sortItems o items) := by
      rw [sortItems]
      cases o.arraysBy with
      | none => exact fun a ha => ha
      | some member => exact givesOrFails_sortByKey fun a ha => noTypeError_elementKey member (hitems a ha)
    exact hsorted.bind fun sorted hmem => foreigns_array_eq_nil.mpr fun a ha => hitems a (hmem a ha)
  · intro members hmembers
    have hsorted : GivesOrFails (fun sorted => ∀ m ∈ sorted, m ∈ members) NoTypeError (sortMembers o members) := by
      rw [sortMembers]
      split
      · exact givesOrFails_sortByKey fun m _ => noTypeError_memberKey o.keyOrder m.1
      · exact fun m hm => hm
    exact hsorted.bind fun sorted hmem => foreigns_object_eq_nil.mpr fun m hm => hmembers m (hmem m hm)

theorem canonicalize_of_foreign (o : SortOptions) {v : Value} (hv : v.WellFormedApart) {d : Datum}
    (hd : v.foreigns.head? = some d) : canonicalize o v = .error (.foreignNode d.typeName) := by
  rw [canonicalize, Algebra.walk_eq_fold]
  refine Algebra.fold_of_foreign _ (fun _ => rfl) (fun u hu hclean => ?_) hd
  have hsorted := canonicalize_eq_ok o ((hv.of_occurs hu).wellFormed hclean)
  rw [canonicalize, Algebra.walk_eq_fold] at hsorted
  exact ⟨_, hsorted⟩

theorem typed_of_typedKey {v : Value} {r : Nat} {k : TypedKey} (hrank : ElementKey.rank v = .ok r)
    (hkey : TypedKey.ofValue v = .ok k) : (ElementKey.carries r k).Typed := by
  cases v with
  | number t =>
    obtain rfl := Except.ok.inj hrank
    rw [TypedKey.ofValue] at hkey
    cases hparts : NumberParts.ofText? t with
    | none =>
      rw [hparts] at hkey
      cases hkey
    | some p =>
      rw [hparts] at hkey
      obtain rfl := Except.ok.inj hkey
      rfl
  | array items =>
    obtain rfl := Except.ok.inj hrank
    obtain ⟨t, -, hkey⟩ := bind_eq_ok_iff.mp hkey
    obtain rfl := Except.ok.inj hkey
    rfl
  | object members =>
    obtain rfl := Except.ok.inj hrank
    obtain ⟨t, -, hkey⟩ := bind_eq_ok_iff.mp hkey
    obtain rfl := Except.ok.inj hkey
    rfl
  | foreign d => cases hrank
  | _ =>
    obtain rfl := Except.ok.inj hrank
    obtain rfl := Except.ok.inj hkey
    rfl

/-- Sort keys that were computed, of whichever items, have a type that their rank tells. -/
theorem typed_of_elementKey {member : Text} {v : Value} {k : ElementKey} (h : ElementKey.ofItem member v = .ok k) :
    k.Typed := by
  cases v with
  | object members =>
    rw [ElementKey.ofItem] at h
    cases hfound : Value.lookup member members with
    | none =>
      rw [hfound] at h
      obtain rfl := Except.ok.inj h
      trivial
    | some u =>
      rw [hfound] at h
      obtain ⟨r, hrank, h⟩ := bind_eq_ok_iff.mp h
      obtain ⟨key, hkey, h⟩ := bind_eq_ok_iff.mp h
      obtain rfl := Except.ok.inj h
      exact typed_of_typedKey hrank hkey
  | _ =>
    obtain rfl := Except.ok.inj h
    trivial

end Sorting

/-! ### Converting -/

theorem toDatum_of_foreign {v : Value} (hnumbers : ∀ t, Occurs (.number t) v → ∃ d, numberDatum t = .ok d)
    {d : Datum} (hd : v.foreigns.head? = some d) : v.toDatum = .error (.foreignNode d.typeName) := by
  rw [Value.toDatum, Algebra.walk_eq_fold]
  refine Algebra.fold_of_foreign _ (fun _ => rfl) (fun u hu hclean => ?_) hd
  obtain ⟨e, he⟩ := Value.convertible_of_numbers (not_occurs_foreign hclean) fun t ht => hnumbers t (ht.trans hu)
  rw [Value.toDatum, Algebra.walk_eq_fold] at he
  exact ⟨e, he⟩

theorem noTypeError_plainAlgebra {v : Value} (h : v.foreigns = []) :
    GivesOrFails (fun _ => True) NoTypeError (plainAlgebra.fold v) := by
  have hinteger : ∀ t, GivesOrFails (fun _ => True) NoTypeError (Value.numberInteger t) := by
    intro t
    rw [Value.numberInteger]
    cases Digits.toInt (t.dropWhile (·.is '-')) <;> trivial
  have hdecimal : ∀ t, GivesOrFails (fun _ => True) NoTypeError (Value.numberDecimal t) := by
    intro t
    rw [Value.numberDecimal]
    cases Decimal.ofText t <;> trivial
  have hleaf : ∀ v, v.foreigns = [] → GivesOrFails (fun _ => True) NoTypeError (plainAlgebra.leaf v) := by
    intro v hv
    cases v with
    | number t =>
      change GivesOrFails (fun _ => True) NoTypeError (numberDatum t)
      rw [numberDatum]
      split
      · exact (hinteger t).bind fun _ _ => trivial
      · exact (hdecimal t).bind fun _ _ => trivial
    | foreign d => cases hv
    | _ => trivial
  have harray : ∀ as, GivesOrFails (fun _ => True) NoTypeError (plainAlgebra.array as) := fun _ => trivial
  have hobject : ∀ as, GivesOrFails (fun _ => True) NoTypeError (plainAlgebra.object as) := fun _ => trivial
  exact Algebra.givesOrFails_fold hleaf (fun as _ => harray as) (fun as _ => hobject as) h

/-! ### All three -/

theorem noTypeError_of_error {α : Type} {R : α → Prop} {x : Except Problem α} (h : GivesOrFails R NoTypeError x)
    {p : Problem} (hx : x = .error p) : p.isTypeError = false := by
  rw [hx] at h
  exact h

/-- If a tree is well-formed but for objects that are no values, sorting, printing and converting all refuse the first
of them in document order and name its type: whatever the order, in every layout whose indentation of one level can be
made, and for converting as long as every number converts. On a tree without such objects none of them fails for
the type of an object, and neither does a comparison of sort keys. With an indentation that cannot be made, printing
refuses every tree before it looks at it. -/
theorem foreign_refused (v : Value) :
    (v.WellFormedApart → ∀ d, v.foreigns.head? = some d →
      (∀ o, canonicalize o v = .error (.foreignNode d.typeName))
      ∧ (∀ l : LayoutOptions, l.indent.Fits → render l v = .error (.foreignNode d.typeName))
      ∧ ((∀ t, Occurs (.number t) v → ∃ e, numberDatum t = .ok e) →
          v.toDatum = .error (.foreignNode d.typeName)))
    ∧ (v.foreigns = [] →
      (∀ o p, canonicalize o v = .error p → p.isTypeError = false)
      ∧ (∀ l p, render l v = .error p → p.isTypeError = false)
      ∧ ∀ p, v.toDatum = .error p → p.isTypeError = false)
    ∧ (∀ member u w k l, ElementKey.ofItem member u = .ok k → ElementKey.ofItem member w = .ok l → k.Comparable l)
    ∧ (∀ (l : LayoutOptions) e, checkIndent l.indent = .error e → render l v = .error e)
    ∧ ∀ (l : LayoutOptions) count, l.indent = .spaces count → indexBound ≤ count →
      render l v = .error .countTooLarge := by
  refine ⟨?_, ?_, ?_, fun l e h => render_eq_error h v, ?_⟩
  · intro hv d hd
    exact ⟨fun o => canonicalize_of_foreign o hv hd, fun l hindent => render_of_foreign hindent hv hd,
      fun hnumbers => toDatum_of_foreign hnumbers hd⟩
  · intro hclean
    refine ⟨fun o p h => ?_, fun l p h => noTypeError_of_error (noTypeError_render hclean) h, fun p h => ?_⟩
    · rw [canonicalize, Algebra.walk_eq_fold] at h
      exact noTypeError_of_error (noTypeError_canonicalAlgebra hclean) h
    · rw [Value.toDatum, Algebra.walk_eq_fold] at h
      exact noTypeError_of_error (noTypeError_plainAlgebra hclean) h
  · intro member u w k l hk hl
    exact (typed_of_elementKey hk).comparable (typed_of_elementKey hl)
  · intro l count hspaces hcount
    apply render_eq_error
    rw [hspaces, checkIndent_of_index hcount]

/-- Of two foreign objects the one inside an item comes first, behind a member that arrays are sorted by. -/
theorem foreign_refused_nested :
    let k : Text := Text.ofChars ['k']
    let half : Text := Text.ofChars ['0', '.', '5']
    let d : Datum := .scalar (.other (Text.ofString "Widget"))
    let e : Datum := .scalar (.other (Text.ofString "Gadget"))
    let v : Value := .array [.object [(k, .number half), (k, .foreign d)], .foreign e]
    let o : SortOptions := ⟨true, .utf16, some k⟩
    let l : LayoutOptions := { numbers := .normalized }
    v.WellFormedApart ∧ l.indent.Fits ∧ canonicalize o v = .error (.foreignNode d.typeName)
      ∧ render l v = .error (.foreignNode d.typeName) ∧ v.toDatum = .error (.foreignNode d.typeName) := by
  intro k half d e v o l
  have hk : k.SurrogateFree := by decide
  have hhalf : isNumeral half = true := by decide
  have hnumber : (Value.number half).WellFormedApart := @Value.WellFormed.apart (.number half) hhalf
  have hobject : (Value.object [(k, .number half), (k, .foreign d)]).WellFormedApart := by
    refine Value.wellFormedApart_object.mpr fun m hm => ?_
    simp only [List.mem_cons, List.not_mem_nil, or_false] at hm
    rcases hm with rfl | rfl
    · exact ⟨hk, hnumber⟩
    · exact ⟨hk, Value.wellFormedApart_foreign d⟩
  have hv : v.WellFormedApart := by
    refine Value.wellFormedApart_array.mpr fun u hu => ?_
    simp only [List.mem_cons, List.not_mem_nil, or_false] at hu
    rcases hu with rfl | rfl
    · exact hobject
    · exact Value.wellFormedApart_foreign e
  have hindent : l.indent.Fits := by decide
  have hnumbers : ∀ t, Occurs (.number t) v → ∃ e, numberDatum t = .ok e := by
    intro t ht
    change Occurs (.number t) (.array [.object [(k, .number half), (k, .foreign d)], .foreign e]) at ht
    obtain _ | ⟨hu, ht⟩ := ht
    simp only [List.mem_cons, List.not_mem_nil, or_false] at hu
    rcases hu with rfl | rfl
    · obtain _ | _ | ⟨hm, ht⟩ := ht
      simp only [List.mem_cons, List.not_mem_nil, or_false] at hm
      rcases hm with rfl | rfl
      · cases ht
        exact ⟨_, rfl⟩
      · cases ht
    · cases ht
  obtain ⟨hsort, hprint, hconvert⟩ := (foreign_refused v).1 hv d rfl
  exact ⟨hv, hindent, hsort o, hprint l hindent, hconvert hnumbers⟩

/-- With this indentation the first foreign object is not what printing fails on. -/
theorem not_foreign_refused_of_countTooLarge :
    let d : Datum := .scalar (.other (Text.ofString "Widget"))
    let v : Value := .foreign d
    let l : LayoutOptions := { indent := .spaces 0x8000000000000000 }
    v.WellFormedApart ∧ v.foreigns.head? = some d ∧ render l v ≠ .error (.foreignNode d.typeName) := by
  intro d v l
  refine ⟨Value.wellFormedApart_foreign d, rfl, ?_⟩
  intro hrender
  have hindent : checkIndent (.spaces 0x8000000000000000) = .error .countTooLarge := checkIndent_of_index (by decide)
  rw [render_eq_error (o := l) hindent] at hrender
  cases hrender

end CanonJson
