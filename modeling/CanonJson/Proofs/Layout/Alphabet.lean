import CanonJson.Proofs.Layout.Rules
/-!
# The characters of printed text

A printed text consists of parts: some are put there by the layout, which begins lines and indents them, and the
others are brackets, marks, and the spellings of what the tree holds. Whatever the strings and keys hold, their
spellings have no control characters, and in ASCII output nothing beyond the tilde. So every control character of
a printed text is a line feed or a tab of the layout, and without lines there is none but the line feed at the end.
-/

namespace CanonJson.Layout

/-- A part of a printed text: put there by the layout, or the spelling of something else. -/
inductive Part where
  | layout (t : Text)
  | content (t : Text)

def Part.text : Part → Text
  | .layout t => t
  | .content t => t

/-- The parts of a container, given those of its entries. -/
def enclosedParts (o : LayoutOptions) (b : Bracket) (level : Nat) : List (List Part) → List Part
  | [] => [.content (Text.ofChars [b.opener, b.closer])]
  | entry :: entries =>
    .content (Text.ofChars [b.opener]) :: .layout (lineStart o.indent (level + 1)) :: entry
      ++ entries.flatMap (fun entry =>
        .content (comma o.indent o.spacing) :: .layout (lineStart o.indent (level + 1)) :: entry)
      ++ [.layout (lineStart o.indent level), .content (Text.ofChars [b.closer])]

mutual

/-- The parts of a tree at a level. -/
def parts (o : LayoutOptions) (level : Nat) : Value → List Part
  | .array items => enclosedParts o .array level (itemParts o (level + 1) items)
  | .object members => enclosedParts o .object level (memberParts o (level + 1) members)
  | v => [.content (shape o level v)]

def itemParts (o : LayoutOptions) (level : Nat) : List Value → List (List Part)
  | [] => []
  | v :: vs => parts o level v :: itemParts o level vs

def memberParts (o : LayoutOptions) (level : Nat) : List (Text × Value) → List (List Part)
  | [] => []
  | (k, v) :: ms =>
    (.content (encodeString o.ascii k) :: .content (keyMark o.spacing) :: parts o level v) :: memberParts o level ms

end

def documentParts (o : LayoutOptions) (v : Value) : List Part :=
  parts o 0 v ++ if o.trailingNewline then [.layout [CodePoint.ofChar '\n']] else []

/-! ### The parts make up the text -/

theorem itemParts_eq_map (o : LayoutOptions) (level : Nat) (items : List Value) :
    itemParts o level items = items.map (parts o level) := by
  induction items with
  | nil => rfl
  | cons v vs ih => rw [itemParts, ih, List.map_cons]

theorem memberParts_eq_map (o : LayoutOptions) (level : Nat) (members : List (Text × Value)) :
    memberParts o level members = members.map fun m =>
      .content (encodeString o.ascii m.1) :: .content (keyMark o.spacing) :: parts o level m.2 := by
  induction members with
  | nil => rfl
  | cons m ms ih => rw [memberParts, ih, List.map_cons]

theorem text_enclosedParts (o : LayoutOptions) (b : Bracket) (level : Nat) (entries : List (List Part)) :
    (enclosedParts o b level entries).flatMap Part.text
      = bracketed o b level (entries.map fun entry => entry.flatMap Part.text) := by
  cases entries with
  | nil => rfl
  | cons entry entries =>
    rw [List.map_cons, bracketed_eq_enclosed, enclosed, Text.join_cons]
    simp [enclosedParts, Part.text, Text.ofChars, List.flatMap_assoc, List.flatMap_map]

/-- The parts of a tree, one after the other, are its text. -/
theorem text_parts (o : LayoutOptions) (level : Nat) (v : Value) :
    (parts o level v).flatMap Part.text = shape o level v := by
  induction v using Value.childInduction generalizing level with
  | array items ih =>
    rw [parts, itemParts_eq_map, text_enclosedParts, List.map_map, shape, shapeItems_eq_map]
    exact congrArg _ (List.map_congr_left fun v hv => ih v hv (level + 1))
  | object members ih =>
    rw [parts, memberParts_eq_map, text_enclosedParts, List.map_map, shape, shapeMembers_eq_map]
    refine congrArg _ (List.map_congr_left fun m hm => ?_)
    simp only [Function.comp_apply, List.flatMap_cons, Part.text, ih m hm, keyText, colon_eq_keyMark, List.append_assoc]
  | _ => simp [parts, Part.text]

/-! ### Spellings without control characters -/

/-- There is no control character in the text, and nothing beyond the tilde if it is to be ASCII. -/
def Plain (ascii : Bool) (t : Text) : Prop :=
  ∀ c ∈ t, 0x20 ≤ c.val ∧ (ascii = true → c.val ≤ 0x7E)

section Spellings

variable {ascii : Bool}

theorem plain_append {s t : Text} : Plain ascii (s ++ t) ↔ Plain ascii s ∧ Plain ascii t :=
  List.forall_mem_append

theorem plain_flatMap {α : Type} {l : List α} {f : α → Text} (h : ∀ a ∈ l, Plain ascii (f a)) :
    Plain ascii (l.flatMap f) := by
  intro c hc
  obtain ⟨a, ha, hc⟩ := List.mem_flatMap.mp hc
  exact h a ha c hc

theorem plain_ofChars {cs : List Char} (h : (cs.all fun ch => 0x20 ≤ ch.toNat && ch.toNat ≤ 0x7E) = true) :
    Plain ascii (Text.ofChars cs) := by
  intro c hc
  obtain ⟨ch, hch, rfl⟩ := List.mem_map.mp hc
  have hbounds := List.all_eq_true.mp h ch hch
  simp only [Bool.and_eq_true, decide_eq_true_eq] at hbounds
  exact ⟨hbounds.1, fun _ => hbounds.2⟩

theorem plain_unitEscape (u : Nat) : Plain ascii (unitEscape u) := by
  have hdigit : ∀ d < 16, 0x20 ≤ (Text.hexDigit false d).val ∧ (Text.hexDigit false d).val ≤ 0x7E := by decide
  refine plain_append.mpr ⟨plain_ofChars (by decide), fun c hc => ?_⟩
  obtain ⟨i, -, rfl⟩ := List.mem_map.mp hc
  obtain ⟨hlow, hhigh⟩ := hdigit _ (Nat.mod_lt (u / Nat.pow 16 i) (by decide))
  exact ⟨hlow, fun _ => hhigh⟩

theorem plain_escapePoint (c : CodePoint) : Plain ascii (escapePoint ascii c) := by
  unfold escapePoint
  split
  · rename_i hquote
    obtain rfl | rfl : c = CodePoint.ofChar '"' ∨ c = CodePoint.ofChar '\\' := by
      simpa [CodePoint.is_iff] using hquote
    · exact @plain_ofChars ascii ['\\', '"'] (by decide)
    · exact @plain_ofChars ascii ['\\', '\\'] (by decide)
  split
  · exact plain_ofChars (by decide)
  split
  · exact plain_ofChars (by decide)
  split
  · exact plain_ofChars (by decide)
  split
  · exact plain_ofChars (by decide)
  split
  · exact plain_ofChars (by decide)
  split
  · exact plain_unitEscape c.val
  rename_i hcontrol
  split
  · exact plain_flatMap fun u _ => plain_unitEscape u
  · rename_i hbeyond
    intro d hd
    obtain rfl := List.mem_singleton.mp hd
    refine ⟨Nat.le_of_not_lt hcontrol, fun hascii => ?_⟩
    simpa [hascii] using hbeyond

theorem plain_encodeString (t : Text) : Plain ascii (encodeString ascii t) := by
  have hquote : Plain ascii (Text.ofChars ['"']) := plain_ofChars (by decide)
  exact plain_append.mpr ⟨plain_append.mpr ⟨hquote, plain_flatMap fun c _ => plain_escapePoint c⟩, hquote⟩

theorem plain_number {t : Text} (ht : Grammar.Number t) : Plain ascii t := by
  intro c hc
  have hin := Syntax.inNumber_of_mem_number ht c hc
  simp only [Syntax.inNumber, Bool.or_eq_true, CodePoint.is_iff] at hin
  rcases hin with (hstart | rfl) | rfl
  · have hbounds := Syntax.startsNumber_bounds hstart
    exact ⟨by omega, fun _ => by omega⟩
  · exact ⟨by decide, fun _ => by decide⟩
  · exact ⟨by decide, fun _ => by decide⟩

end Spellings

/-! ### The parts of each origin -/

/-- The part is the beginning of a line, or text without control characters. -/
def Part.Within (o : LayoutOptions) : Part → Prop
  | .layout t => ∃ level, t = lineStart o.indent level
  | .content t => Plain o.ascii t

section Parts

variable {o : LayoutOptions} {level : Nat}

theorem plain_comma : Plain o.ascii (comma o.indent o.spacing) := by
  cases o.indent <;> cases o.spacing <;> exact plain_ofChars (by decide)

theorem plain_keyMark : Plain o.ascii (keyMark o.spacing) := by
  cases o.spacing <;> exact plain_ofChars (by decide)

theorem within_enclosedParts {b : Bracket} {entries : List (List Part)}
    (h : ∀ entry ∈ entries, ∀ p ∈ entry, p.Within o) : ∀ p ∈ enclosedParts o b level entries, p.Within o := by
  have hbrackets : ∀ cs ∈ [[b.opener, b.closer], [b.opener], [b.closer]], Plain o.ascii (Text.ofChars cs) := by
    cases b <;> simp only [List.forall_mem_cons] <;>
      exact ⟨plain_ofChars (by decide), plain_ofChars (by decide), plain_ofChars (by decide), List.forall_mem_nil _⟩
  cases entries with
  | nil =>
    intro p hp
    obtain rfl := List.mem_singleton.mp hp
    exact hbrackets _ (by simp)
  | cons entry entries =>
    obtain ⟨hentry, hentries⟩ := List.forall_mem_cons.mp h
    have hmore : ∀ p ∈ entries.flatMap (fun entry =>
        .content (comma o.indent o.spacing) :: .layout (lineStart o.indent (level + 1)) :: entry), p.Within o := by
      intro p hp
      obtain ⟨entry', hmem, hp⟩ := List.mem_flatMap.mp hp
      have hall : ∀ p ∈ Part.content (comma o.indent o.spacing) :: .layout (lineStart o.indent (level + 1)) :: entry',
          p.Within o :=
        List.forall_mem_cons.mpr ⟨plain_comma, List.forall_mem_cons.mpr ⟨⟨_, rfl⟩, hentries entry' hmem⟩⟩
      exact hall p hp
    have hopener : Part.Within o (.content (Text.ofChars [b.opener])) := hbrackets _ (by simp)
    have hcloser : Part.Within o (.content (Text.ofChars [b.closer])) := hbrackets _ (by simp)
    simp only [enclosedParts, List.forall_mem_append, List.forall_mem_cons]
    exact ⟨⟨⟨hopener, ⟨_, rfl⟩, hentry⟩, hmore⟩, ⟨_, rfl⟩, hcloser, List.forall_mem_nil _⟩

theorem within_leaf {t : Text} (ht : Plain o.ascii t) : ∀ p ∈ [Part.content t], p.Within o := by
  intro p hp
  obtain rfl := List.mem_singleton.mp hp
  exact ht

/-- Every part of a tree that can be printed is the beginning of a line or free of control characters. -/
theorem within_parts {v : Value} (hv : v.Printable) : ∀ p ∈ parts o level v, p.Within o := by
  induction v using Value.childInduction generalizing level with
  | null => exact within_leaf (plain_ofChars (by decide))
  | bool b => cases b <;> exact within_leaf (plain_ofChars (by decide))
  | number t => exact within_leaf (plain_number (number_shownNumber o hv))
  | string t => exact within_leaf (plain_encodeString t)
  | array items ih =>
    rw [Value.printable_array] at hv
    rw [parts, itemParts_eq_map]
    apply within_enclosedParts
    intro entry hentry
    obtain ⟨v, hmem, rfl⟩ := List.mem_map.mp hentry
    exact ih v hmem (hv v hmem)
  | object members ih =>
    rw [Value.printable_object] at hv
    rw [parts, memberParts_eq_map]
    apply within_enclosedParts
    intro entry hentry
    obtain ⟨m, hm, rfl⟩ := List.mem_map.mp hentry
    exact List.forall_mem_cons.mpr ⟨plain_encodeString _, List.forall_mem_cons.mpr ⟨plain_keyMark, ih m hm (hv m hm)⟩⟩
  | foreign d => exact hv.elim

end Parts

/-! ### The characters of the layout -/

theorem mem_lineStart {indent : Indent} {level : Nat} {c : CodePoint} (h : c ∈ lineStart indent level) :
    indent ≠ .singleLine ∧ (c = CodePoint.ofChar '\n' ∨ c = CodePoint.ofChar ' '
      ∨ indent = .tab ∧ c = CodePoint.ofChar '\t') := by
  cases indent with
  | singleLine => cases h
  | tab =>
    rcases List.mem_cons.mp h with rfl | h
    · exact ⟨nofun, .inl rfl⟩
    · exact ⟨nofun, .inr (.inr ⟨rfl, List.eq_of_mem_replicate h⟩)⟩
  | spaces count =>
    rcases List.mem_cons.mp h with rfl | h
    · exact ⟨nofun, .inl rfl⟩
    · exact ⟨nofun, .inr (.inl (List.eq_of_mem_replicate h))⟩

/-- A character of a tree's text belongs to the beginning of a line, or to a part without control characters. -/
theorem mem_shape {o : LayoutOptions} {v : Value} (hv : v.Printable) {c : CodePoint} (hc : c ∈ shape o 0 v) :
    (∃ level, c ∈ lineStart o.indent level) ∨ 0x20 ≤ c.val ∧ (o.ascii = true → c.val ≤ 0x7E) := by
  rw [← text_parts] at hc
  obtain ⟨p, hp, hc⟩ := List.mem_flatMap.mp hc
  have hwithin := within_parts hv p hp
  cases p with
  | layout t =>
    obtain ⟨level, rfl⟩ := hwithin
    exact .inl ⟨level, hc⟩
  | content t => exact .inr (hwithin c hc)

theorem text_documentParts (o : LayoutOptions) (v : Value) :
    (documentParts o v).flatMap Part.text = documentShape o v := by
  rw [documentParts, documentShape, List.flatMap_append, text_parts]
  cases o.trailingNewline <;> rfl

theorem mem_documentParts {o : LayoutOptions} {v : Value} (hv : v.Printable) {p : Part}
    (hp : p ∈ documentParts o v) : p.Within o ∨ p = .layout [CodePoint.ofChar '\n'] := by
  rcases List.mem_append.mp hp with hp | hp
  · exact .inl (within_parts hv p hp)
  · split at hp
    · exact .inr (List.mem_singleton.mp hp)
    · cases hp

end CanonJson.Layout

namespace CanonJson

open Layout

/-- Whatever the strings and keys of a tree hold, its printed text consists of parts of the layout and of other parts, and
the others have no control characters; those of the layout have line feeds and spaces and, if it indents by tabs, tabs. So
these are all the control characters that are printed; on a single line there are none but the line feed at the end, if the
options want one; and ASCII output has nothing beyond the tilde. -/
theorem render_within_alphabet (o : LayoutOptions) (v : Value) (hv : v.Printable) :
    (o.indent.Fits → ∃ t, render o v = .ok t)
    ∧ ∀ t, render o v = .ok t →
      t = (documentParts o v).flatMap Part.text
      ∧ (∀ s, Part.content s ∈ documentParts o v → ∀ c ∈ s, 0x20 ≤ c.val)
      ∧ (∀ s, Part.layout s ∈ documentParts o v → ∀ c ∈ s,
        c = CodePoint.ofChar '\n' ∨ c = CodePoint.ofChar ' ' ∨ o.indent = .tab ∧ c = CodePoint.ofChar '\t')
      ∧ (∀ c ∈ t, c.val < 0x20 → c = CodePoint.ofChar '\n' ∨ o.indent = .tab ∧ c = CodePoint.ofChar '\t')
      ∧ (o.indent = .singleLine →
        ∃ body, t = body ++ (if o.trailingNewline then [CodePoint.ofChar '\n'] else []) ∧ ∀ c ∈ body, 0x20 ≤ c.val)
      ∧ (o.ascii = true → ∀ c ∈ t, c.val ≤ 0x7E) := by
  refine ⟨fun hindent => ⟨_, render_eq_ok hindent hv⟩, fun t ht => ?_⟩
  obtain rfl : t = documentShape o v := by
    cases hcheck : checkIndent o.indent with
    | error p => cases ht.symm.trans (render_eq_error hcheck v)
    | ok u => exact Except.ok.inj (ht.symm.trans (render_eq_ok hcheck hv))
  have hend : ∀ c ∈ (if o.trailingNewline then [CodePoint.ofChar '\n'] else []), c = CodePoint.ofChar '\n' := by
    intro c hc
    split at hc
    · exact List.mem_singleton.mp hc
    · cases hc
  refine ⟨(text_documentParts o v).symm, ?_, ?_, ?_, ?_, ?_⟩
  · intro s hs c hc
    rcases mem_documentParts hv hs with hwithin | heq
    · exact (hwithin c hc).1
    · cases heq
  · intro s hs c hc
    rcases mem_documentParts hv hs with ⟨level, rfl⟩ | heq
    · exact (mem_lineStart hc).2
    · obtain rfl := Part.layout.inj heq
      exact .inl (List.mem_singleton.mp hc)
  · intro c hc hcontrol
    rcases List.mem_append.mp hc with hc | hc
    · rcases mem_shape hv hc with ⟨level, hc⟩ | ⟨hlow, -⟩
      · rcases (mem_lineStart hc).2 with h | rfl | h
        · exact .inl h
        · exact absurd hcontrol (by decide)
        · exact .inr h
      · omega
    · exact .inl (hend c hc)
  · intro hindent
    refine ⟨shape o 0 v, rfl, fun c hc => ?_⟩
    rcases mem_shape hv hc with ⟨level, hc⟩ | ⟨hlow, -⟩
    · exact absurd hindent (mem_lineStart hc).1
    · exact hlow
  · intro hascii c hc
    rcases List.mem_append.mp hc with hc | hc
    · rcases mem_shape hv hc with ⟨level, hc⟩ | ⟨-, hhigh⟩
      · rcases (mem_lineStart hc).2 with rfl | rfl | ⟨-, rfl⟩ <;> decide
      · exact hhigh hascii
    · obtain rfl := hend c hc
      decide

/-- A lone surrogate, control characters and a code point beyond the basic plane, in strings and in keys. -/
theorem render_within_alphabet_escaped :
    let k : Text := [CodePoint.ofNat 0xD800, CodePoint.ofChar '\n']
    let s : Text := [CodePoint.ofNat 0, CodePoint.ofNat 0x1F600, CodePoint.ofNat 0x7F, CodePoint.ofChar '\t']
    let v : Value := .object [(k, .array [.string s, .object [(s, .number (Text.ofChars ['1', 'e', '5']))]])]
    let o : LayoutOptions := { indent := .tab, ascii := true }
    v.Printable ∧ o.indent.Fits ∧ ∃ t, render o v = .ok t
      ∧ (∀ c ∈ t, c.val < 0x20 → c = CodePoint.ofChar '\n' ∨ c = CodePoint.ofChar '\t') ∧ ∀ c ∈ t, c.val ≤ 0x7E := by
  intro k s v o
  have hnumber : isNumeral (Text.ofChars ['1', 'e', '5']) = true := by decide
  have hv : v.Printable := ⟨⟨trivial, ⟨hnumber, trivial⟩, trivial⟩, trivial⟩
  have hindent : o.indent.Fits := by decide
  obtain ⟨hrenders, hwithin⟩ := render_within_alphabet o v hv
  obtain ⟨t, ht⟩ := hrenders hindent
  obtain ⟨-, -, -, hcontrol, -, hascii⟩ := hwithin t ht
  exact ⟨hv, hindent, t, ht, fun c hc hlow => (hcontrol c hc hlow).imp_right And.right, hascii rfl⟩

end CanonJson
