import CanonJson.Proofs.Syntax.Leaf
import CanonJson.Syntax.Parser
/-!
# Whatever the grammar derives, the reader takes

The reader keeps its open containers on a stack, and the grammar nests its derivations. A text that
denotes a value takes the reader, whatever stack lies below and whatever text follows, from the state
before it to the state that has just finished the value: `ReadsValue` says so of one text and one value,
and `readsValue_of_denotes` proves it by induction on the derivation. The limit enters only as room for
the depth of the value.
-/

namespace CanonJson.Syntax

open Grammar

/-! ### Keys -/

/-- What comes before the value of a member: its key and the colon, with white space. -/
def KeyText (t key : Text) : Prop :=
  ∃ w s w', Space w ∧ Str s key ∧ Space w' ∧ t = w ++ s ++ w' ++ [CodePoint.ofChar ':']

theorem KeyText.append_left {w t key : Text} (h : KeyText t key) (hw : Space w) :
    KeyText (w ++ t) key := by
  obtain ⟨w₁, s, w₂, hw₁, hs, hw₂, rfl⟩ := h
  exact ⟨w ++ w₁, s, w₂, space_append hw hw₁, hs, hw₂, by simp only [List.append_assoc]⟩

theorem keyText_of_readKey {input key rest : Text} (h : readKey input = .ok (key, rest)) :
    ∃ t, KeyText t key ∧ input = t ++ rest := by
  unfold readKey at h
  split at h
  · simp at h
  · rename_i c rest₁ hskip
    obtain ⟨w, hw, rfl⟩ := exists_space_of_skipSpace hskip
    split at h
    · rename_i hquote
      obtain rfl := CodePoint.is_iff.mp hquote
      split at h
      · simp at h
      · rename_i key' rest₂ hread
        obtain ⟨body, hbody, rfl⟩ := readString_eq_ok_iff.mp hread
        split at h
        · simp at h
        · rename_i d rest₃ hskip'
          obtain ⟨w', hw', rfl⟩ := exists_space_of_skipSpace hskip'
          split at h
          · rename_i hcolon
            simp only [Except.ok.injEq, Prod.mk.injEq] at h
            obtain ⟨rfl, rfl⟩ := h
            refine ⟨_, ⟨w, _, w', hw, ⟨body, hbody, rfl⟩, hw', rfl⟩, ?_⟩
            rw [CodePoint.is_iff.mp hcolon]
            simp
          · simp at h
    · simp at h

theorem readKey_of_keyText {t key : Text} (h : KeyText t key) (rest : Text) :
    readKey (t ++ rest) = .ok (key, rest) := by
  obtain ⟨w, s, w', hw, ⟨body, hbody, rfl⟩, hw', rfl⟩ := h
  have hskip : skipSpace (w ++ (CodePoint.ofChar '"' :: body ++ [CodePoint.ofChar '"']) ++ w'
      ++ [CodePoint.ofChar ':'] ++ rest)
      = CodePoint.ofChar '"' :: (body ++ CodePoint.ofChar '"' :: (w' ++ CodePoint.ofChar ':' :: rest)) := by
    simpa using skipSpace_append_cons hw (by decide)
  have hread : ∀ start, readString start (body ++ CodePoint.ofChar '"' :: (w' ++ CodePoint.ofChar ':' :: rest))
      = .ok (key, w' ++ CodePoint.ofChar ':' :: rest) :=
    fun start => readString_eq_ok_iff.mpr ⟨body, hbody, rfl⟩
  have hcolon : skipSpace (w' ++ CodePoint.ofChar ':' :: rest) = CodePoint.ofChar ':' :: rest :=
    skipSpace_append_cons hw' (by decide)
  unfold readKey
  rw [hskip]
  simp only [CodePoint.is_ofChar_self, ↓reduceIte, hread, hcolon]

theorem skipSpace_keyText {t key : Text} (h : KeyText t key) (rest : Text) :
    ∃ t', KeyText (CodePoint.ofChar '"' :: t') key
      ∧ skipSpace (t ++ rest) = CodePoint.ofChar '"' :: (t' ++ rest) := by
  obtain ⟨w, s, w', hw, ⟨body, hbody, rfl⟩, hw', rfl⟩ := h
  refine ⟨body ++ [CodePoint.ofChar '"'] ++ w' ++ [CodePoint.ofChar ':'],
    ⟨[], _, w', space_nil, ⟨body, hbody, rfl⟩, hw', rfl⟩, ?_⟩
  simpa using skipSpace_append_cons hw (by decide)

/-! ### One value in front of anything

`resume` is the rest of a round: the state behind a finished value.
-/

/-- Attaches a finished value and reads on. -/
def resume (limit room : Nat) (stack : List Frame) (v : Value) (input : Text) :
    Except Failure (Value × Text) :=
  match attach room stack v input with
  | .error e => .error e
  | .ok (.next room' stack' rest) => readValue limit room' stack' rest
  | .ok (.done v' rest) => .ok (v', rest)

variable {limit room : Nat} {stack : List Frame}

theorem resume_nil (v : Value) (rest : Text) : resume limit room [] v rest = .ok (v, rest) := by
  simp [resume, attach]

theorem readValue_of_opened {input rest : Text} {f : Frame}
    (h : beginValue limit room input = .ok (.opened f rest)) :
    readValue limit room stack input = readValue limit (room - 1) (f :: stack) rest := by
  rw [readValue]
  split <;> simp_all

theorem readValue_of_finished {input rest : Text} {v : Value}
    (h : beginValue limit room input = .ok (.finished v rest)) :
    readValue limit room stack input = resume limit room stack v rest := by
  rw [readValue]
  split
  · simp_all
  · simp_all
  · rename_i v' rest' h'
    rw [h] at h'
    simp only [Except.ok.injEq, Begun.finished.injEq] at h'
    obtain ⟨rfl, rfl⟩ := h'
    unfold resume
    split <;> simp_all

theorem readValue_of_error {input : Text} {e : Failure}
    (h : beginValue limit room input = .error e) : readValue limit room stack input = .error e := by
  rw [readValue]
  split <;> simp_all

theorem readValue_skipSpace (input : Text) :
    readValue limit room stack (skipSpace input) = readValue limit room stack input := by
  have hbegin : beginValue limit room (skipSpace input) = beginValue limit room input := by
    unfold beginValue
    rw [skipSpace_idem]
  cases h : beginValue limit room input with
  | error e => rw [readValue_of_error h, readValue_of_error (hbegin.trans h)]
  | ok b =>
    cases b with
    | opened f rest => rw [readValue_of_opened h, readValue_of_opened (hbegin.trans h)]
    | finished v rest => rw [readValue_of_finished h, readValue_of_finished (hbegin.trans h)]

theorem beginValue_of_leaf {w t rest : Text} {v : Value} (hw : Space w) (h : Leaf t v)
    (hrest : rest.Halts inNumber) :
    beginValue limit room (w ++ t ++ rest) = .ok (.finished v rest) := by
  have hread := readScalar_of_leaf h hrest
  obtain ⟨c, t, rfl, hspace, hbracket, hbrace, -, -⟩ := h.exists_cons
  rw [List.append_assoc, List.cons_append] at *
  unfold beginValue
  rw [skipSpace_append_cons hw hspace]
  simp only [hbracket, hbrace, Bool.or_false, Bool.false_eq_true, ↓reduceIte, hread, Except.map]

theorem beginValue_of_opener {w rest : Text} (b : Bracket) (hw : Space w) :
    beginValue limit (room + 1) (w ++ CodePoint.ofChar b.opener :: rest)
      = openContainer b rest := by
  have hspace : isSpace (CodePoint.ofChar b.opener) = false := by cases b <;> decide
  have hopener : ((CodePoint.ofChar b.opener).is '[' || (CodePoint.ofChar b.opener).is '\x7b') = true := by
    cases b <;> decide
  have hkind : (if (CodePoint.ofChar b.opener).is '[' then Bracket.array else Bracket.object) = b := by
    cases b <;> decide
  unfold beginValue
  rw [skipSpace_append_cons hw hspace]
  simp only [hopener, ↓reduceIte, Nat.add_eq_zero_iff, Nat.one_ne_zero, and_false, hkind]

theorem openContainer_array {input : Text} (h : startsWith (skipSpace input) ']' = false) :
    openContainer .array input = .ok (.opened (.array []) (skipSpace input)) := by
  unfold openContainer
  split
  · rename_i c rest hskip
    rw [hskip] at h ⊢
    simp only [startsWith] at h
    simp only [Bracket.closer, h, Bool.false_eq_true, ↓reduceIte]
  · rename_i hskip
    rw [hskip]

theorem openContainer_object {t key : Text} (h : KeyText t key) (rest : Text) :
    openContainer .object (t ++ rest) = .ok (.opened (.object [] key) rest) := by
  obtain ⟨t', hkey, hskip⟩ := skipSpace_keyText h rest
  have hread := readKey_of_keyText hkey rest
  have hcloser : (CodePoint.ofChar '"').is '\x7d' = false := by decide
  rw [List.cons_append] at hread
  unfold openContainer
  rw [hskip]
  simp only [Bracket.closer, hcloser, Bool.false_eq_true, ↓reduceIte, hread]

theorem openContainer_empty {w : Text} (b : Bracket) (hw : Space w) (rest : Text) :
    openContainer b (w ++ CodePoint.ofChar b.closer :: rest)
      = .ok (.finished (match b with | .array => .array [] | .object => .object []) rest) := by
  have hspace : isSpace (CodePoint.ofChar b.closer) = false := by cases b <;> decide
  unfold openContainer
  rw [skipSpace_append_cons hw hspace]
  cases b with
  | array => rfl
  | object => rfl

theorem resume_close {w rest : Text} (f : Frame) (v : Value) (hw : Space w) :
    resume limit room (f :: stack) v (w ++ CodePoint.ofChar f.bracket.closer :: rest)
      = resume limit (room + 1) stack (f.close v) rest := by
  have hspace : isSpace (CodePoint.ofChar f.bracket.closer) = false := by
    cases f.bracket <;> decide
  have hcomma : (CodePoint.ofChar f.bracket.closer).is ',' = false := by
    cases f.bracket <;> decide
  unfold resume
  rw [attach, skipSpace_append_cons hw hspace]
  simp only [hcomma, Bool.false_eq_true, ↓reduceIte, CodePoint.is_ofChar_self]

theorem resume_next_item {w rest : Text} {items : List Value} (v : Value) (hw : Space w)
    (hrest : startsWith (skipSpace rest) ']' = false) :
    resume limit room (.array items :: stack) v (w ++ CodePoint.ofChar ',' :: rest)
      = readValue limit room (.array (v :: items) :: stack) rest := by
  have hnext : attach room (.array items :: stack) v (w ++ CodePoint.ofChar ',' :: rest)
      = .ok (.next room (.array (v :: items) :: stack) (skipSpace rest)) := by
    rw [attach, skipSpace_append_cons hw (by decide)]
    simp only [CodePoint.is_ofChar_self, ↓reduceIte, Frame.bracket, Bracket.closer, hrest,
      Bool.false_eq_true, nextEntry]
  rw [resume, hnext]
  exact readValue_skipSpace rest

theorem resume_next_member {w t key key' rest : Text} {members : List (Text × Value)} (v : Value)
    (hw : Space w) (ht : KeyText t key') :
    resume limit room (.object members key :: stack) v (w ++ CodePoint.ofChar ',' :: (t ++ rest))
      = readValue limit room (.object ((key, v) :: members) key' :: stack) rest := by
  obtain ⟨t', hkey, hskip⟩ := skipSpace_keyText ht rest
  have hread := readKey_of_keyText hkey rest
  have hcloser : (CodePoint.ofChar '"').is '\x7d' = false := by decide
  have hnext : attach room (.object members key :: stack) v (w ++ CodePoint.ofChar ',' :: (t ++ rest))
      = .ok (.next room (.object ((key, v) :: members) key' :: stack) rest) := by
    rw [attach, skipSpace_append_cons hw (by decide)]
    rw [List.cons_append] at hread
    simp only [CodePoint.is_ofChar_self, ↓reduceIte, Frame.bracket, Bracket.closer, hskip,
      startsWith, hcloser,
      Bool.false_eq_true, nextEntry, hread]
  rw [resume, hnext]

/-- The first character of a value is neither white space nor the end of an array nor a mark. -/
theorem denotes_exists_cons {t : Text} {v : Value} (h : Denotes t v) :
    ∃ c t', t = c :: t' ∧ isSpace c = false ∧ c.is ']' = false ∧ c.val ≠ 0xFEFF := by
  have hleaf : ∀ {v : Value}, Leaf t v → ∃ c t', t = c :: t' ∧ isSpace c = false ∧ c.is ']' = false
      ∧ c.val ≠ 0xFEFF := by
    intro v h
    obtain ⟨c, t', ht, hspace, -, -, hcloser, hmark⟩ := h.exists_cons
    exact ⟨c, t', ht, hspace, hcloser, hmark⟩
  cases h with
  | null => exact hleaf (.literal _ .null (by simp [literals]))
  | true => exact hleaf (.literal _ (.bool true) (by simp [literals]))
  | false => exact hleaf (.literal _ (.bool false) (by simp [literals]))
  | number t h => exact hleaf (.number t h)
  | string t s h => exact hleaf (.string t s h)
  | emptyArray w h => exact ⟨_, _, rfl, by decide, by decide, by decide⟩
  | array t vs h => exact ⟨_, _, rfl, by decide, by decide, by decide⟩
  | emptyObject w h => exact ⟨_, _, rfl, by decide, by decide, by decide⟩
  | object t ms h => exact ⟨_, _, rfl, by decide, by decide, by decide⟩

theorem startsWith_items {t : Text} {vs : List Value} (h : Items t vs) (rest : Text) :
    startsWith (skipSpace (t ++ rest)) ']' = false := by
  have hfirst : ∀ {w t rest : Text} {v : Value}, Space w → Denotes t v →
      startsWith (skipSpace (w ++ (t ++ rest))) ']' = false := by
    intro w t rest v hw ht
    obtain ⟨c, t, rfl, hspace, hcloser, -⟩ := denotes_exists_cons ht
    rw [List.cons_append, skipSpace_append_cons hw hspace]
    exact hcloser
  cases h with
  | one w t w' v before item behind =>
    rw [List.append_assoc, List.append_assoc]
    exact hfirst before item
  | cons w t w' rest' v vs before item behind more =>
    rw [List.append_assoc, List.append_assoc, List.append_assoc]
    exact hfirst before item

theorem halts_space_append {w rest : Text} (hw : Space w) (hrest : rest.Halts inNumber) :
    (w ++ rest).Halts inNumber := by
  refine Text.Halts.append ?_ fun _ => hrest
  intro c hc
  rcases hw c (List.mem_of_mem_head? hc) with rfl | rfl | rfl | rfl <;> decide

private theorem halts_behind_item {w rest : Text} {ch : Char} (hw : Space w)
    (hch : inNumber (CodePoint.ofChar ch) = false) :
    (w ++ CodePoint.ofChar ch :: rest).Halts inNumber :=
  halts_space_append hw (Text.halts_cons.mpr hch)

/-- The text brings the reader to the state behind the value, whatever lies around it. -/
def ReadsValue (t : Text) (v : Value) : Prop :=
  ∀ (limit room : Nat) (stack : List Frame) (w rest : Text), Space w → v.depth ≤ room → rest.Halts inNumber →
    readValue limit room stack (w ++ t ++ rest) = resume limit room stack v rest

/-- The text and a closing bracket bring the reader to the state behind the array. -/
def ReadsItems (t : Text) (vs : List Value) : Prop :=
  ∀ (limit room : Nat) (stack : List Frame) (items : List Value) (rest : Text), Value.itemsDepth vs ≤ room →
    readValue limit room (.array items :: stack) (t ++ CodePoint.ofChar ']' :: rest)
      = resume limit (room + 1) stack (.array (items.reverse ++ vs)) rest

/-- Behind its first key, the text and a closing brace bring the reader to the state behind the object. -/
def ReadsMembers (t : Text) (ms : List (Text × Value)) : Prop :=
  ∃ keyText key t', KeyText keyText key ∧ t = keyText ++ t' ∧
    ∀ (limit room : Nat) (stack : List Frame) (members : List (Text × Value)) (rest : Text),
      Value.membersDepth ms ≤ room →
      readValue limit room (.object members key :: stack) (t' ++ CodePoint.ofChar '\x7d' :: rest)
        = resume limit (room + 1) stack (.object (members.reverse ++ ms)) rest

/-- The text is a key and a value behind it that the reader takes. -/
def ReadsMember (t key : Text) (v : Value) : Prop :=
  ∃ keyText w t' w', KeyText keyText key ∧ Space w ∧ Space w' ∧ t = keyText ++ (w ++ t' ++ w')
    ∧ ReadsValue t' v

theorem Leaf.readsValue {t : Text} {v : Value} (h : Leaf t v) : ReadsValue t v := by
  intro limit room stack w rest hw _ hrest
  exact readValue_of_finished (beginValue_of_leaf hw h hrest)

theorem ReadsItems.one {w t w' : Text} {v : Value} (before : Space w) (item : ReadsValue t v)
    (behind : Space w') : ReadsItems (w ++ t ++ w') [v] := by
  intro limit room stack items rest hroom
  rw [Value.itemsDepth, Value.itemsDepth] at hroom
  rw [List.append_assoc, item _ _ _ _ _ before (by omega) (halts_behind_item behind (by decide)),
    ← List.reverse_cons]
  exact resume_close (.array items) v behind

theorem ReadsItems.cons {w t w' rest : Text} {v : Value} {vs : List Value} (before : Space w)
    (item : ReadsValue t v) (behind : Space w') (more : Items rest vs)
    (hmore : ReadsItems rest vs) :
    ReadsItems (w ++ t ++ w' ++ CodePoint.ofChar ',' :: rest) (v :: vs) := by
  intro limit room stack items rest' hroom
  rw [Value.itemsDepth] at hroom
  rw [List.append_assoc, List.append_assoc, List.cons_append,
    item _ _ _ _ _ before (by omega) (halts_behind_item behind (by decide)),
    resume_next_item v behind (startsWith_items more _), hmore _ _ _ _ _ (by omega), List.reverse_cons,
    List.append_assoc, List.singleton_append]

theorem ReadsMember.mk {w₁ s w₂ w₃ t w₄ k : Text} {v : Value} (h₁ : Space w₁) (key : Str s k)
    (h₂ : Space w₂) (h₃ : Space w₃) (item : ReadsValue t v) (h₄ : Space w₄) :
    ReadsMember (w₁ ++ s ++ w₂ ++ CodePoint.ofChar ':' :: w₃ ++ t ++ w₄) k v := by
  refine ⟨w₁ ++ s ++ w₂ ++ [CodePoint.ofChar ':'], w₃, t, w₄, ⟨w₁, s, w₂, h₁, key, h₂, rfl⟩, h₃, h₄, ?_, item⟩
  simp only [List.append_assoc, List.cons_append, List.nil_append]

theorem ReadsMembers.one {t k : Text} {v : Value} (member : ReadsMember t k v) :
    ReadsMembers t [(k, v)] := by
  obtain ⟨keyText, w, t', w', hkey, hw, hw', rfl, hread⟩ := member
  refine ⟨keyText, k, w ++ t' ++ w', hkey, rfl, ?_⟩
  intro limit room stack members rest hroom
  rw [Value.membersDepth, Value.membersDepth] at hroom
  rw [List.append_assoc, hread _ _ _ _ _ hw (by omega) (halts_behind_item hw' (by decide)),
    ← List.reverse_cons]
  exact resume_close (.object members k) v hw'

theorem ReadsMembers.cons {t rest k : Text} {v : Value} {ms : List (Text × Value)}
    (member : ReadsMember t k v) (more : ReadsMembers rest ms) :
    ReadsMembers (t ++ CodePoint.ofChar ',' :: rest) ((k, v) :: ms) := by
  obtain ⟨keyText, w, t', w', hkey, hw, hw', rfl, hread⟩ := member
  obtain ⟨keyText', key', rest', hkey', rfl, hmore⟩ := more
  refine ⟨keyText, k, w ++ t' ++ w' ++ CodePoint.ofChar ',' :: (keyText' ++ rest'), hkey,
    List.append_assoc .., ?_⟩
  intro limit room stack members rest hroom
  rw [Value.membersDepth] at hroom
  rw [List.append_assoc, List.append_assoc, List.cons_append,
    hread _ _ _ _ _ hw (by omega) (halts_behind_item hw' (by decide)), List.append_assoc,
    resume_next_member v hw' hkey', hmore _ _ _ _ _ (by omega), List.reverse_cons, List.append_assoc,
    List.singleton_append]

theorem readsValue_emptyArray {w : Text} (h : Space w) :
    ReadsValue (CodePoint.ofChar '[' :: w ++ [CodePoint.ofChar ']']) (.array []) := by
  intro limit room stack w' rest hw hroom _
  obtain ⟨room, rfl⟩ : ∃ r, room = r + 1 := Nat.exists_eq_add_one.mpr hroom
  apply readValue_of_finished
  rw [List.append_assoc, List.cons_append, List.cons_append, List.append_assoc]
  exact (beginValue_of_opener .array hw).trans (openContainer_empty .array h rest)

theorem readsValue_emptyObject {w : Text} (h : Space w) :
    ReadsValue (CodePoint.ofChar '\x7b' :: w ++ [CodePoint.ofChar '\x7d']) (.object []) := by
  intro limit room stack w' rest hw hroom _
  obtain ⟨room, rfl⟩ : ∃ r, room = r + 1 := Nat.exists_eq_add_one.mpr hroom
  apply readValue_of_finished
  rw [List.append_assoc, List.cons_append, List.cons_append, List.append_assoc]
  exact (beginValue_of_opener .object hw).trans (openContainer_empty .object h rest)

theorem ReadsItems.readsValue {t : Text} {vs : List Value} (h : Items t vs)
    (hread : ReadsItems t vs) :
    ReadsValue (CodePoint.ofChar '[' :: t ++ [CodePoint.ofChar ']']) (.array vs) := by
  intro limit room stack w rest hw hroom _
  rw [Value.depth] at hroom
  obtain ⟨room, rfl⟩ : ∃ r, room = r + 1 := Nat.exists_eq_add_one.mpr (by omega)
  have hopen : beginValue limit (room + 1) (w ++ (CodePoint.ofChar '[' :: t ++ [CodePoint.ofChar ']']) ++ rest)
      = .ok (.opened (.array []) (skipSpace (t ++ CodePoint.ofChar ']' :: rest))) := by
    rw [List.append_assoc, List.cons_append, List.cons_append, List.append_assoc]
    exact (beginValue_of_opener .array hw).trans (openContainer_array (startsWith_items h _))
  rw [readValue_of_opened hopen, readValue_skipSpace]
  exact hread _ _ _ _ _ (Nat.le_of_succ_le_succ hroom)

theorem ReadsMembers.readsValue {t : Text} {ms : List (Text × Value)} (hread : ReadsMembers t ms) :
    ReadsValue (CodePoint.ofChar '\x7b' :: t ++ [CodePoint.ofChar '\x7d']) (.object ms) := by
  intro limit room stack w rest hw hroom _
  obtain ⟨keyText, key, t', hkey, rfl, hread⟩ := hread
  rw [Value.depth] at hroom
  obtain ⟨room, rfl⟩ : ∃ r, room = r + 1 := Nat.exists_eq_add_one.mpr (by omega)
  have hopen : beginValue limit (room + 1)
      (w ++ (CodePoint.ofChar '\x7b' :: (keyText ++ t') ++ [CodePoint.ofChar '\x7d']) ++ rest)
      = .ok (.opened (.object [] key) (t' ++ CodePoint.ofChar '\x7d' :: rest)) := by
    rw [List.append_assoc, List.cons_append, List.cons_append, List.append_assoc, List.append_assoc]
    exact (beginValue_of_opener .object hw).trans (openContainer_object hkey _)
  rw [readValue_of_opened hopen]
  exact hread _ _ _ _ _ (Nat.le_of_succ_le_succ hroom)

mutual

/-- Whatever the grammar derives, the reader takes. -/
theorem readsValue_of_denotes {t : Text} {v : Value} : Denotes t v → ReadsValue t v
  | .null => Leaf.readsValue (.literal _ .null (by simp [literals]))
  | .true => Leaf.readsValue (.literal _ (.bool true) (by simp [literals]))
  | .false => Leaf.readsValue (.literal _ (.bool false) (by simp [literals]))
  | .number t h => Leaf.readsValue (.number t h)
  | .string t s h => Leaf.readsValue (.string t s h)
  | .emptyArray _ h => readsValue_emptyArray h
  | .array _ _ h => (readsItems_of_items h).readsValue h
  | .emptyObject _ h => readsValue_emptyObject h
  | .object _ _ h => (readsMembers_of_members h).readsValue

theorem readsItems_of_items {t : Text} {vs : List Value} : Items t vs → ReadsItems t vs
  | .one _ _ _ _ before item behind => .one before (readsValue_of_denotes item) behind
  | .cons _ _ _ _ _ _ before item behind more =>
    .cons before (readsValue_of_denotes item) behind more (readsItems_of_items more)

theorem readsMembers_of_members {t : Text} {ms : List (Text × Value)} :
    Members t ms → ReadsMembers t ms
  | .one _ _ _ member => .one (readsMember_of_member member)
  | .cons _ _ _ _ _ member more => .cons (readsMember_of_member member) (readsMembers_of_members more)

theorem readsMember_of_member {t k : Text} {v : Value} : Member t k v → ReadsMember t k v
  | .mk _ _ _ _ _ _ _ _ h₁ key h₂ h₃ item h₄ => .mk h₁ key h₂ h₃ (readsValue_of_denotes item) h₄

end

end CanonJson.Syntax
