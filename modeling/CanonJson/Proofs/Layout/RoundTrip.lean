import CanonJson.Proofs.Layout.Escape
import CanonJson.Proofs.Layout.Shape
import CanonJson.Proofs.Syntax.Parsed
import CanonJson.Proofs.Value.Renumber
/-!
# Printing and reading back

The shape of a tree is a text of the grammar, whatever the layout: line breaks and indentation are white
space, each entry is followed by a separator or a closing bracket, and a number, spelled as the options
want it, is a number. It denotes the tree that was printed, with its numbers in the printed spelling. So
reading what was printed returns that tree.
-/

namespace CanonJson

namespace Layout

open Grammar Syntax

/-! ### Layout is white space -/

theorem space_replicate {c : CodePoint} (hc : Space [c]) (n : Nat) :
    Space (List.replicate n c) := by
  intro d hd
  rw [List.eq_of_mem_replicate hd]
  exact hc c (by simp)

theorem space_unit {i : Indent} {unit : Text} (h : i.unit? = some unit) : Space unit := by
  cases i with
  | singleLine => simp [Indent.unit?] at h
  | tab =>
    obtain rfl := Option.some.inj h
    simp [Space]
  | spaces count =>
    obtain rfl := Option.some.inj h
    exact space_replicate (by simp [Space]) count

theorem space_lineBreak (o : LayoutOptions) (level : Nat) : Space (lineBreak o level) := by
  unfold lineBreak
  split
  · exact space_nil
  · rename_i unit hunit
    intro c hc
    rcases List.mem_cons.mp hc with rfl | hc
    · simp
    · obtain ⟨line, hline, hc⟩ := List.mem_flatten.mp hc
      rw [List.eq_of_mem_replicate hline] at hc
      exact space_unit hunit c hc

theorem exists_separator (o : LayoutOptions) :
    ∃ w, Space w ∧ separator o = CodePoint.ofChar ',' :: w := by
  unfold separator
  split
  · exact ⟨[CodePoint.ofChar ' '], by simp [Space], rfl⟩
  · exact ⟨[], space_nil, rfl⟩

theorem exists_between (o : LayoutOptions) (level : Nat) :
    ∃ w, Space w ∧ between o level = CodePoint.ofChar ',' :: w := by
  obtain ⟨w, hw, hseparator⟩ := exists_separator o
  refine ⟨w ++ lineBreak o level, space_append hw (space_lineBreak o level), ?_⟩
  rw [between, hseparator, List.cons_append]

theorem exists_colon (o : LayoutOptions) : ∃ w, Space w ∧ colon o = CodePoint.ofChar ':' :: w := by
  unfold colon
  split
  · exact ⟨[], space_nil, rfl⟩
  · exact ⟨[CodePoint.ofChar ' '], by simp [Space], rfl⟩

/-! ### Containers -/

section Containers

variable {o : LayoutOptions} {level : Nat} {f : Value → Value}

theorem items_join {v : Value} {items : List Value}
    (h : ∀ u ∈ v :: items, Denotes (shape o level u) (f u)) {w w' : Text} (hw : Space w)
    (hw' : Space w') :
    Items (w ++ Text.join (between o level) ((v :: items).map (shape o level)) ++ w') ((v :: items).map f) := by
  induction items generalizing v w with
  | nil =>
    rw [List.map_singleton, List.map_singleton, Text.join_singleton]
    exact .one w _ w' _ hw (h v (by simp)) hw'
  | cons u items ih =>
    obtain ⟨gap, hgap, hbetween⟩ := exists_between o level
    obtain ⟨hv, h⟩ := List.forall_mem_cons.mp h
    -- The gap behind the comma is the white space in front of the next item.
    have hitems := Items.cons w _ [] _ _ _ hw hv space_nil (ih h hgap)
    rw [List.map_cons, Text.join_cons] at hitems
    rw [List.map_cons, List.map_cons, List.map_cons, Text.join_cons, List.flatMap_cons, hbetween]
    simpa only [hbetween, List.append_assoc, List.cons_append, List.append_nil, List.nil_append,
      List.map_cons]
      using hitems

theorem member_keyText {k : Text} {t : Text} {v : Value} (hk : k.SurrogateFree) (ht : Denotes t v)
    {w w' : Text} (hw : Space w) (hw' : Space w') : Member (w ++ (keyText o k ++ t) ++ w') k v := by
  obtain ⟨gap, hgap, hcolon⟩ := exists_colon o
  have hmember := Member.mk w _ [] gap t w' k v hw (@str_encodeString o.ascii k hk) space_nil hgap ht hw'
  rw [keyText, hcolon]
  simpa only [List.append_assoc, List.cons_append, List.nil_append, List.append_nil] using hmember

theorem members_join {m : Text × Value} {members : List (Text × Value)}
    (h : ∀ n ∈ m :: members, n.1.SurrogateFree ∧ Denotes (shape o level n.2) (f n.2))
    {w w' : Text} (hw : Space w) (hw' : Space w') :
    Members
      (w ++ Text.join (between o level) ((m :: members).map fun n => keyText o n.1 ++ shape o level n.2) ++ w')
      ((m :: members).map fun n => (n.1, f n.2)) := by
  induction members generalizing m w with
  | nil =>
    rw [List.map_singleton, List.map_singleton, Text.join_singleton]
    have hm := h m (by simp)
    exact .one _ _ _ (member_keyText hm.1 hm.2 hw hw')
  | cons n members ih =>
    obtain ⟨gap, hgap, hbetween⟩ := exists_between o level
    obtain ⟨hm, h⟩ := List.forall_mem_cons.mp h
    have hmembers := Members.cons _ _ _ _ _ (member_keyText (o := o) hm.1 hm.2 hw space_nil) (ih h hgap)
    rw [List.map_cons, Text.join_cons] at hmembers
    rw [List.map_cons, List.map_cons, List.map_cons, Text.join_cons, List.flatMap_cons, hbetween]
    simpa only [hbetween, List.append_assoc, List.cons_append, List.append_nil, List.nil_append,
      List.map_cons]
      using hmembers

end Containers

/-! ### Trees -/

theorem shownNumber_verbatim {o : LayoutOptions} (h : o.numbers = .verbatim) :
    shownNumber o = fun t => t := by
  unfold shownNumber
  rw [h]

theorem shownNumber_normalized {o : LayoutOptions} (h : o.numbers = .normalized) :
    shownNumber o = normalNumber := by
  unfold shownNumber
  rw [h]
  rfl

theorem isNumeral_shownNumber (o : LayoutOptions) {t : Text} (ht : isNumeral t = true) :
    isNumeral (shownNumber o t) = true := by
  cases h : o.numbers with
  | verbatim => rwa [shownNumber_verbatim h]
  | normalized => rw [shownNumber_normalized h, isNumeral_normalNumber ht]

theorem number_shownNumber (o : LayoutOptions) {t : Text} (ht : isNumeral t = true) :
    Number (shownNumber o t) :=
  isNumeral_iff.mp (isNumeral_shownNumber o ht)

/-- The shape of a tree denotes the tree with its numbers as they are shown. -/
theorem denotes_shape (o : LayoutOptions) {v : Value} (hv : v.WellFormed) (level : Nat) :
    Denotes (shape o level v) (v.mapNumbers (shownNumber o)) := by
  induction v using Value.childInduction generalizing level with
  | null => exact .null
  | bool b =>
    cases b with
    | true => exact .true
    | false => exact .false
  | number t => exact .number _ (number_shownNumber o hv)
  | string t => exact .string _ _ (str_encodeString hv)
  | array items ih =>
    rw [Value.wellFormed_array] at hv
    rw [Value.mapNumbers_array, shape, shapeItems_eq_map]
    cases items with
    | nil => exact .emptyArray [] space_nil
    | cons v items =>
      have hitems := items_join (fun u hu => ih u hu (hv u hu) (level + 1)) (space_lineBreak o (level + 1))
        (space_lineBreak o level)
      have hdenotes := Denotes.array _ _ hitems
      rw [bracketed, if_neg (by simp)]
      simpa only [Bracket.opener, Bracket.closer, List.append_assoc,
        List.cons_append] using hdenotes
  | object members ih =>
    rw [Value.wellFormed_object] at hv
    rw [Value.mapNumbers_object, shape, shapeMembers_eq_map]
    cases members with
    | nil => exact .emptyObject [] space_nil
    | cons m members =>
      have hmembers := members_join (fun n hn => ⟨(hv n hn).1, ih n hn (hv n hn).2 (level + 1)⟩)
        (space_lineBreak o (level + 1)) (space_lineBreak o level)
      have hdenotes := Denotes.object _ _ hmembers
      rw [bracketed, if_neg (by simp)]
      simpa only [Bracket.opener, Bracket.closer, List.append_assoc,
        List.cons_append] using hdenotes
  | foreign d => exact hv.elim

theorem document_documentShape (o : LayoutOptions) {v : Value} (hv : v.WellFormed) :
    Document (documentShape o v) (v.mapNumbers (shownNumber o)) := by
  refine ⟨[], [], _, _, .inl rfl, space_nil, denotes_shape o hv 0, ?_, rfl⟩
  split
  · simp [Space]
  · exact space_nil

/-! ### Shown numbers are shown as they are -/

theorem shownNumber_shownNumber (o : LayoutOptions) {t : Text} (ht : isNumeral t = true) :
    shownNumber o (shownNumber o t) = shownNumber o t := by
  cases h : o.numbers with
  | verbatim => rw [shownNumber_verbatim h]
  | normalized => rw [shownNumber_normalized h, normalNumber_normalNumber ht]

theorem shape_mapNumbers (o : LayoutOptions) {v : Value} (hv : v.WellFormed) (level : Nat) :
    shape o level (v.mapNumbers (shownNumber o)) = shape o level v := by
  induction v using Value.childInduction generalizing level with
  | null => simp
  | bool b => simp
  | number t => rw [Value.mapNumbers_number, shape, shape, shownNumber_shownNumber o hv]
  | string t => simp
  | array items ih =>
    rw [Value.wellFormed_array] at hv
    rw [Value.mapNumbers_array, shape, shape, shapeItems_eq_map, shapeItems_eq_map, List.map_map]
    exact congrArg _ (List.map_congr_left fun v hmem => ih v hmem (hv v hmem) (level + 1))
  | object members ih =>
    rw [Value.wellFormed_object] at hv
    rw [Value.mapNumbers_object, shape, shape, shapeMembers_eq_map, shapeMembers_eq_map,
      List.map_map]
    refine congrArg _ (List.map_congr_left fun m hm => ?_)
    exact congrArg (keyText o m.1 ++ ·) (ih m hm (hv m hm).2 (level + 1))
  | foreign d => exact hv.elim

theorem documentShape_mapNumbers (o : LayoutOptions) {v : Value} (hv : v.WellFormed) :
    documentShape o (v.mapNumbers (shownNumber o)) = documentShape o v := by
  rw [documentShape, documentShape, shape_mapNumbers o hv]

/-! ### No surrogates -/

theorem surrogateFree_join {sep : Text} {ts : List Text} (hsep : sep.SurrogateFree)
    (hts : ∀ t ∈ ts, Text.SurrogateFree t) : (Text.join sep ts).SurrogateFree := by
  cases ts with
  | nil => exact Text.surrogateFree_nil
  | cons t ts =>
    obtain ⟨ht, hts⟩ := List.forall_mem_cons.mp hts
    rw [Text.join_cons]
    refine Text.surrogateFree_append.mpr ⟨ht, Text.surrogateFree_flatMap ?_⟩
    intro s hs
    exact Text.surrogateFree_append.mpr ⟨hsep, hts s hs⟩

theorem surrogateFree_bracketed {o : LayoutOptions} {b : Bracket} {level : Nat}
    {entries : List Text} (h : ∀ t ∈ entries, Text.SurrogateFree t) :
    (bracketed o b level entries).SurrogateFree := by
  have hline := fun n => surrogateFree_space (space_lineBreak o n)
  have hbetween : (between o (level + 1)).SurrogateFree := by
    obtain ⟨w, hw, hbetween⟩ := exists_between o (level + 1)
    rw [hbetween]
    exact Text.surrogateFree_cons.mpr ⟨CodePoint.isSurrogate_ofChar _, surrogateFree_space hw⟩
  unfold bracketed
  split
  · exact Text.surrogateFree_ofChars _
  · simp only [Text.surrogateFree_append, Text.surrogateFree_cons, CodePoint.isSurrogate_ofChar,
      hline, true_and, and_true]
    exact ⟨surrogateFree_join hbetween h, Text.surrogateFree_nil⟩

theorem surrogateFree_shape (o : LayoutOptions) {v : Value} (hv : v.WellFormed) (level : Nat) :
    (shape o level v).SurrogateFree := by
  induction v using Value.childInduction generalizing level with
  | null => exact Text.surrogateFree_ofChars _
  | bool b => cases b <;> exact Text.surrogateFree_ofChars _
  | number t => exact surrogateFree_number (number_shownNumber o hv)
  | string t => exact surrogateFree_encodeString hv
  | array items ih =>
    rw [Value.wellFormed_array] at hv
    rw [shape, shapeItems_eq_map]
    apply surrogateFree_bracketed
    intro t ht
    obtain ⟨v, hmem, rfl⟩ := List.mem_map.mp ht
    exact ih v hmem (hv v hmem) (level + 1)
  | object members ih =>
    rw [Value.wellFormed_object] at hv
    rw [shape, shapeMembers_eq_map]
    apply surrogateFree_bracketed
    intro t ht
    obtain ⟨m, hm, rfl⟩ := List.mem_map.mp ht
    obtain ⟨w, hw, hcolon⟩ := exists_colon o
    have hkey : (keyText o m.1).SurrogateFree := by
      rw [keyText, hcolon, Text.surrogateFree_append, Text.surrogateFree_cons]
      exact ⟨surrogateFree_encodeString (hv m hm).1, CodePoint.isSurrogate_ofChar _, surrogateFree_space hw⟩
    exact Text.surrogateFree_append.mpr ⟨hkey, ih m hm (hv m hm).2 (level + 1)⟩
  | foreign d => exact hv.elim

theorem surrogateFree_documentShape (o : LayoutOptions) {v : Value} (hv : v.WellFormed) :
    (documentShape o v).SurrogateFree := by
  refine Text.surrogateFree_append.mpr ⟨surrogateFree_shape o hv 0, ?_⟩
  split
  · exact Text.surrogateFree_ofChars ['\n']
  · exact Text.surrogateFree_nil

end Layout

/-! ### Indentation -/

/-- The indentation of one level can be made. -/
def Indent.Fits (indent : Indent) : Prop :=
  checkIndent indent = .ok ()

instance (indent : Indent) : Decidable indent.Fits :=
  match h : checkIndent indent with
  | .ok _ => .isTrue h
  | .error e => .isFalse fun hfits => by cases h.symm.trans hfits

theorem Indent.fits_or (i : Indent) : i.Fits ∨ ∃ e, checkIndent i = .error e := by
  cases h : checkIndent i with
  | ok _ => exact .inl h
  | error e => exact .inr ⟨e, rfl⟩

/-- No string is as long as that. -/
theorem checkIndent_of_index {count : Nat} (h : indexBound ≤ count) :
    checkIndent (.spaces count) = .error .countTooLarge := by
  have hindex : checkIndex count = .error .countTooLarge := by
    rw [checkIndex, if_neg (by omega)]
  simp only [checkIndent, Indent.count?]
  rw [hindex, error_bind]

/-- Apart from the memory, only the length of strings sets a limit to the indentation. -/
theorem checkIndent_eq_error {i : Indent} {e : Problem} (h : checkIndent i = .error e) :
    e = .outOfMemory ∨ e = .countTooLarge ∧ ∃ count, i = .spaces count ∧ indexBound ≤ count := by
  cases i with
  | singleLine => cases h
  | tab => cases h
  | spaces count =>
    by_cases hindex : indexBound ≤ count
    · obtain rfl := Except.error.inj (h.symm.trans (checkIndent_of_index hindex))
      exact .inr ⟨rfl, count, rfl, hindex⟩
    · left
      have hok : checkIndex count = .ok () := by
        rw [checkIndex, if_pos (by omega)]
      simp only [checkIndent, Indent.count?] at h
      rw [hok, ok_bind] at h
      split at h
      · exact (Except.error.inj h).symm
      · cases h

/-! ### Octets -/

theorem renderBytes_eq_ok {o : LayoutOptions} {v : Value} (hindent : o.indent.Fits)
    (hv : v.WellFormed) :
    renderBytes o v = .ok ((Layout.documentShape o v).flatMap Utf8.encodePoint) := by
  rw [renderBytes, render_eq_ok hindent hv.printable, ok_bind, encodeText,
    Utf8.encode_eq_ok (Layout.surrogateFree_documentShape o hv)]

theorem renderBytes_eq_error {o : LayoutOptions} {e : Problem} (hindent : checkIndent o.indent = .error e)
    (v : Value) : renderBytes o v = .error e := by
  rw [renderBytes, render_eq_error hindent, error_bind]

theorem parse_documentShape (o : LayoutOptions) {v : Value} (hv : v.WellFormed) {limit : Nat}
    (hdepth : v.depth ≤ limit) :
    parse limit (.bytes ((Layout.documentShape o v).flatMap Utf8.encodePoint))
      = .ok (v.mapNumbers (Layout.shownNumber o)) := by
  have hscan := Utf8.scan_encodePoints (Layout.surrogateFree_documentShape o hv)
  refine parse_eq_ok_iff.mpr ⟨Layout.documentShape o v, ?_, Layout.document_documentShape o hv, ?_⟩
  · rw [Source.decode, hscan]
  · exact Nat.le_trans (Value.depth_mapNumbers_le v) hdepth

/-- Printing a tree in any layout whose indentation can be made and reading the octets back, under any limit
that the tree keeps, returns the tree: as it is if numbers are printed as written, and with its numbers in
their normalized spelling otherwise. An indentation that cannot be made is the only reason not to print. -/
theorem parse_renderBytes (v : Value) (hv : v.WellFormed) (o : LayoutOptions) (limit : Nat)
    (hdepth : v.depth ≤ limit) :
    (o.indent.Fits → ∃ bs, renderBytes o v = .ok bs
      ∧ (o.numbers = .verbatim → parse limit (.bytes bs) = .ok v)
      ∧ (o.numbers = .normalized → parse limit (.bytes bs) = .ok (v.mapNumbers normalNumber)))
    ∧ (∀ e, checkIndent o.indent = .error e → renderBytes o v = .error e)
    ∧ ∀ count, o.indent = .spaces count → indexBound ≤ count → renderBytes o v = .error .countTooLarge := by
  have hunfit := fun e (h : checkIndent o.indent = .error e) => renderBytes_eq_error h v
  refine ⟨?_, hunfit, fun count hspaces hcount => hunfit _ (hspaces ▸ checkIndent_of_index hcount)⟩
  intro hindent
  have hparse := parse_documentShape o hv hdepth
  refine ⟨_, renderBytes_eq_ok hindent hv, ?_, ?_⟩
  · intro hnumbers
    rw [hparse, Layout.shownNumber_verbatim hnumbers, Value.mapNumbers_id]
  · intro hnumbers
    rw [hparse, Layout.shownNumber_normalized hnumbers]

/-- Repeated keys, a code point beyond the basic plane in ASCII output, and a number that is not normalized. -/
theorem parse_renderBytes_ascii :
    let k : Text := [CodePoint.ofChar 'k']
    let v : Value := .object [(k, .array [.number (Text.ofChars ['1', '.', '5', '0']), .array []]),
      (k, .string [CodePoint.ofNat 0x1F600])]
    let o : LayoutOptions := { indent := .spaces 3, ascii := true, numbers := .normalized }
    v.WellFormed ∧ v.depth ≤ 3 ∧ o.indent.Fits
      ∧ ∃ bs, renderBytes o v = .ok bs
        ∧ parse 3 (.bytes bs) = .ok (.object [(k, .array [.number (Text.ofChars ['1', '.', '5']), .array []]),
          (k, .string [CodePoint.ofNat 0x1F600])]) := by
  intro k v o
  have hk : k.SurrogateFree := by decide
  have hs : Text.SurrogateFree [CodePoint.ofNat 0x1F600] := by decide
  have hnumber : isNumeral (Text.ofChars ['1', '.', '5', '0']) = true := by decide
  have hv : v.WellFormed := ⟨hk, ⟨hnumber, trivial, trivial⟩, hk, hs, trivial⟩
  have hdepth : v.depth ≤ 3 := by decide
  have hindent : o.indent.Fits := by decide
  obtain ⟨bs, hbs, -, hparse⟩ := (parse_renderBytes v hv o 3 hdepth).1 hindent
  exact ⟨hv, hdepth, hindent, bs, hbs, hparse rfl⟩

/-- No string is as long as this indentation, so that nothing is printed. -/
theorem not_parse_renderBytes_of_countTooLarge :
    Value.null.WellFormed ∧ Value.null.depth ≤ 1
      ∧ ¬ ∃ bs, renderBytes { indent := .spaces 0x8000000000000000 } .null = .ok bs
        ∧ parse 1 (.bytes bs) = .ok .null := by
  refine ⟨trivial, by decide, ?_⟩
  rintro ⟨bs, hbs, -⟩
  have hindent : checkIndent (.spaces 0x8000000000000000) = .error .countTooLarge := checkIndent_of_index (by decide)
  rw [renderBytes_eq_error (o := { indent := .spaces 0x8000000000000000 }) hindent] at hbs
  cases hbs

end CanonJson
