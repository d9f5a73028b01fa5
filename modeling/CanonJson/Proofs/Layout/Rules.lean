import CanonJson.Proofs.Layout.RoundTrip
/-!
# The rules of the layout

The layout as one would describe it to somebody who writes a document by hand: what each kind of value looks
like at a level, what stands between two entries, and where a line begins. The rules are given as a relation
and share nothing with the printer but the spelling of strings and numbers. A tree has exactly one text by
these rules, and the printer writes that text.
-/

namespace CanonJson.Layout

/-- Where a line begins at a level: a line feed and the indentation of each level, or nothing if all stands
on one line. -/
def lineStart : Indent → Nat → Text
  | .singleLine, _ => []
  | .tab, level => CodePoint.ofChar '\n' :: List.replicate level (CodePoint.ofChar '\t')
  | .spaces count, level => CodePoint.ofChar '\n' :: List.replicate (level * count) (CodePoint.ofChar ' ')

/-- What stands behind an entry that another one follows. -/
def comma : Indent → Spacing → Text
  | .singleLine, .spaced => Text.ofChars [',', ' ']
  | .singleLine, .compact => Text.ofChars [',']
  | .tab, _ => Text.ofChars [',']
  | .spaces _, _ => Text.ofChars [',']

/-- What stands behind a key. -/
def keyMark : Spacing → Text
  | .compact => Text.ofChars [':']
  | .spaced => Text.ofChars [':', ' ']

/-- One or more entries of a container at a level, between its brackets. -/
def enclosed (o : LayoutOptions) (level : Nat) (opener closer : Char) (entries : List Text) : Text :=
  [CodePoint.ofChar opener] ++ lineStart o.indent (level + 1)
    ++ Text.join (comma o.indent o.spacing ++ lineStart o.indent (level + 1)) entries
    ++ lineStart o.indent level ++ [CodePoint.ofChar closer]

mutual

/-- The text of a tree at a level, by the rules of the layout. -/
inductive Written (o : LayoutOptions) : Nat → Value → Text → Prop where
  | null (level : Nat) : Written o level .null (Text.ofChars ['n', 'u', 'l', 'l'])
  | true (level : Nat) : Written o level (.bool true) (Text.ofChars ['t', 'r', 'u', 'e'])
  | false (level : Nat) : Written o level (.bool false) (Text.ofChars ['f', 'a', 'l', 's', 'e'])
  | verbatim (level : Nat) (t : Text) (ho : o.numbers = .verbatim) : Written o level (.number t) t
  | normalized (level : Nat) (t t' : Text) (ho : o.numbers = .normalized)
      (ht : normalizeNumber? t = some t') : Written o level (.number t) t'
  | string (level : Nat) (t : Text) : Written o level (.string t) (encodeString o.ascii t)
  | emptyArray (level : Nat) : Written o level (.array []) (Text.ofChars ['[', ']'])
  | emptyObject (level : Nat) : Written o level (.object []) (Text.ofChars ['\x7b', '\x7d'])
  | array (level : Nat) (v : Value) (items : List Value) (texts : List Text)
      (h : WrittenItems o (level + 1) (v :: items) texts) :
      Written o level (.array (v :: items)) (enclosed o level '[' ']' texts)
  | object (level : Nat) (m : Text × Value) (members : List (Text × Value)) (texts : List Text)
      (h : WrittenMembers o (level + 1) (m :: members) texts) :
      Written o level (.object (m :: members)) (enclosed o level '\x7b' '\x7d' texts)

inductive WrittenItems (o : LayoutOptions) : Nat → List Value → List Text → Prop where
  | nil (level : Nat) : WrittenItems o level [] []
  | cons (level : Nat) (v : Value) (items : List Value) (t : Text) (texts : List Text)
      (first : Written o level v t) (more : WrittenItems o level items texts) :
      WrittenItems o level (v :: items) (t :: texts)

inductive WrittenMembers (o : LayoutOptions) : Nat → List (Text × Value) → List Text → Prop where
  | nil (level : Nat) : WrittenMembers o level [] []
  | cons (level : Nat) (m : Text × Value) (members : List (Text × Value)) (t : Text) (texts : List Text)
      (first : Written o level m.2 t) (more : WrittenMembers o level members texts) :
      WrittenMembers o level (m :: members) ((encodeString o.ascii m.1 ++ keyMark o.spacing ++ t) :: texts)

end

/-! ### The printer's separators are those of the rules -/

section Separators

variable (o : LayoutOptions)

theorem lineBreak_eq_lineStart (level : Nat) : lineBreak o level = lineStart o.indent level := by
  unfold lineBreak
  cases o.indent with
  | singleLine => rfl
  | tab => simp only [Indent.unit?, lineStart, List.flatten_replicate_singleton]
  | spaces count => simp only [Indent.unit?, lineStart, List.flatten_replicate_replicate]

theorem separator_eq_comma : separator o = comma o.indent o.spacing := by
  unfold separator
  cases o.indent <;> cases o.spacing <;> rfl

theorem colon_eq_keyMark : colon o = keyMark o.spacing := by
  unfold colon
  cases o.spacing <;> rfl

theorem bracketed_eq_enclosed (b : Bracket) (level : Nat) (t : Text) (entries : List Text) :
    bracketed o b level (t :: entries) = enclosed o level b.opener b.closer (t :: entries) := by
  rw [bracketed, if_neg (by simp), enclosed, between, separator_eq_comma, lineBreak_eq_lineStart,
    lineBreak_eq_lineStart]
  rfl

end Separators

/-! ### One text for each tree -/

section Texts

variable {o : LayoutOptions} {level : Nat}

theorem writtenItems_shape {items : List Value} (h : ∀ v ∈ items, Written o level v (shape o level v)) :
    WrittenItems o level items (items.map (shape o level)) := by
  induction items with
  | nil => exact .nil level
  | cons v items ih =>
    obtain ⟨hv, hitems⟩ := List.forall_mem_cons.mp h
    exact .cons level v items _ _ hv (ih hitems)

theorem writtenMembers_shape {members : List (Text × Value)}
    (h : ∀ m ∈ members, Written o level m.2 (shape o level m.2)) :
    WrittenMembers o level members (members.map fun m => keyText o m.1 ++ shape o level m.2) := by
  induction members with
  | nil => exact .nil level
  | cons m members ih =>
    obtain ⟨hm, hmembers⟩ := List.forall_mem_cons.mp h
    have hwritten := WrittenMembers.cons level m members _ _ hm (ih hmembers)
    rwa [← colon_eq_keyMark] at hwritten

theorem eq_map_of_writtenItems {items : List Value} {texts : List Text}
    (h : ∀ v ∈ items, ∀ t, Written o level v t → t = shape o level v)
    (hwritten : WrittenItems o level items texts) : texts = items.map (shape o level) := by
  induction items generalizing texts with
  | nil =>
    cases hwritten
    rfl
  | cons v items ih =>
    obtain ⟨hv, hitems⟩ := List.forall_mem_cons.mp h
    cases hwritten with
    | cons _ _ _ t texts first more => rw [hv t first, ih hitems more, List.map_cons]

theorem eq_map_of_writtenMembers {members : List (Text × Value)} {texts : List Text}
    (h : ∀ m ∈ members, ∀ t, Written o level m.2 t → t = shape o level m.2)
    (hwritten : WrittenMembers o level members texts) :
    texts = members.map fun m => keyText o m.1 ++ shape o level m.2 := by
  induction members generalizing texts with
  | nil =>
    cases hwritten
    rfl
  | cons m members ih =>
    obtain ⟨hm, hmembers⟩ := List.forall_mem_cons.mp h
    cases hwritten with
    | cons _ _ _ t texts first more =>
      rw [hm t first, ih hmembers more, List.map_cons, keyText, colon_eq_keyMark]

theorem written_shape {v : Value} (hv : v.Printable) : Written o level v (shape o level v) := by
  induction v using Value.childInduction generalizing level with
  | null => exact .null level
  | bool b =>
    cases b with
    | true => exact .true level
    | false => exact .false level
  | number t =>
    rw [Value.Printable] at hv
    rw [shape]
    cases ho : o.numbers with
    | verbatim =>
      rw [shownNumber_verbatim ho]
      exact .verbatim level t ho
    | normalized =>
      rw [shownNumber_normalized ho]
      exact .normalized level t _ ho (normalizeNumber?_eq_some hv)
  | string t => exact .string level t
  | array items ih =>
    rw [Value.printable_array] at hv
    rw [shape, shapeItems_eq_map]
    cases items with
    | nil => exact .emptyArray level
    | cons v items =>
      have hitems := writtenItems_shape fun u hu => @ih u hu (level + 1) (hv u hu)
      have hwritten := Written.array level v items _ hitems
      rwa [List.map_cons, bracketed_eq_enclosed]
  | object members ih =>
    rw [Value.printable_object] at hv
    rw [shape, shapeMembers_eq_map]
    cases members with
    | nil => exact .emptyObject level
    | cons m members =>
      have hmembers := writtenMembers_shape fun n hn => @ih n hn (level + 1) (hv n hn)
      have hwritten := Written.object level m members _ hmembers
      rwa [List.map_cons, bracketed_eq_enclosed]
  | foreign d => exact hv.elim

theorem eq_shape_of_written {v : Value} {t : Text} (h : Written o level v t) : t = shape o level v := by
  induction v using Value.childInduction generalizing level t with
  | null =>
    cases h
    rfl
  | bool b => cases h <;> rfl
  | number t =>
    rw [shape]
    cases h with
    | verbatim _ _ ho => rw [shownNumber_verbatim ho]
    | normalized _ _ _ ho ht => rw [shownNumber_normalized ho, normalNumber, ht, Option.getD_some]
  | string t =>
    cases h
    rfl
  | array items ih =>
    rw [shape, shapeItems_eq_map]
    cases h with
    | emptyArray => rfl
    | array _ v items texts hitems =>
      rw [eq_map_of_writtenItems (fun u hu t => ih u hu) hitems, List.map_cons, bracketed_eq_enclosed]
      rfl
  | object members ih =>
    rw [shape, shapeMembers_eq_map]
    cases h with
    | emptyObject => rfl
    | object _ m members texts hmembers =>
      rw [eq_map_of_writtenMembers (fun n hn t => ih n hn) hmembers, List.map_cons,
        bracketed_eq_enclosed]
      rfl
  | foreign d => cases h

end Texts

end CanonJson.Layout

namespace CanonJson

open Layout

/-- The printer writes each tree of values as the rules of the layout say, with a line feed at the end if the
options want one, provided that the indentation of one level can be made: the rules give the tree exactly one
text, and this is what is printed. With an indentation that cannot be made nothing is printed. -/
theorem render_eq_written (o : LayoutOptions) (v : Value) (hv : v.Printable) :
    (o.indent.Fits → ∃ t, Written o 0 v t ∧ (∀ t', Written o 0 v t' → t' = t)
      ∧ render o v = .ok (t ++ if o.trailingNewline then [CodePoint.ofChar '\n'] else []))
    ∧ (∀ e, checkIndent o.indent = .error e → render o v = .error e)
    ∧ ∀ count, o.indent = .spaces count → indexBound ≤ count → render o v = .error .countTooLarge := by
  have hunfit := fun e (h : checkIndent o.indent = .error e) => render_eq_error h v
  refine ⟨?_, hunfit, fun count hspaces hcount => hunfit _ (hspaces ▸ checkIndent_of_index hcount)⟩
  intro hindent
  exact ⟨shape o 0 v, written_shape hv, fun t => eq_shape_of_written, render_eq_ok hindent hv⟩

/-- A member with an array that holds an empty one, indented by two spaces, with its number normalized. -/
theorem render_eq_written_nested :
    let v : Value := .object [(Text.ofChars ['k'], .array [.number (Text.ofChars ['1', '.', '5', '0']), .array []])]
    let o : LayoutOptions := { numbers := .normalized }
    v.Printable ∧ o.indent.Fits
      ∧ render o v = .ok (Text.ofString "\x7b\n  \"k\": [\n    1.5,\n    []\n  ]\n\x7d\n") := by
  intro v o
  have hnumber : isNumeral (Text.ofChars ['1', '.', '5', '0']) = true := by decide
  have hv : v.Printable := ⟨⟨hnumber, trivial, trivial⟩, trivial⟩
  have hindent : o.indent.Fits := by decide
  obtain ⟨t, ht, -, hrender⟩ := (render_eq_written o v hv).1 hindent
  refine ⟨hv, hindent, ?_⟩
  rw [hrender, eq_shape_of_written ht]
  rfl

/-- The rules give a text also with an indentation that no string is long enough for, but it is not printed. -/
theorem not_render_eq_written_of_countTooLarge :
    let o : LayoutOptions := { indent := .spaces 0x8000000000000000 }
    Value.null.Printable ∧ ∃ t, Written o 0 .null t
      ∧ render o .null ≠ .ok (t ++ if o.trailingNewline then [CodePoint.ofChar '\n'] else []) := by
  intro o
  refine ⟨trivial, _, .null 0, ?_⟩
  have hindent : checkIndent (.spaces 0x8000000000000000) = .error .countTooLarge := checkIndent_of_index (by decide)
  rw [render_eq_error (o := o) hindent]
  simp

end CanonJson
