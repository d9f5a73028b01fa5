import CanonJson.Layout.Shape
import CanonJson.Proofs.Number.Normal
import CanonJson.Proofs.Outcome
import CanonJson.Proofs.Value.Tree
/-!
# The printer follows the recursive layout

The printer works off a list of pieces. What it prints for a list is the concatenation of what the
recursive layout gives for each piece (`renderPieces_eq_ok`), so a whole tree is printed as its shape
(`render_eq_ok`). Trees are printed as long as every number node holds number text and every node is a
value; strings may hold anything.
-/

namespace CanonJson

namespace Value

mutual

/-- The tree can be printed: its numbers are numbers and its nodes are values. -/
def Printable : Value → Prop
  | .number t => isNumeral t = true
  | .array items => ItemsPrintable items
  | .object members => MembersPrintable members
  | .foreign _ => False
  | _ => True

def ItemsPrintable : List Value → Prop
  | [] => True
  | v :: vs => Printable v ∧ ItemsPrintable vs

def MembersPrintable : List (Text × Value) → Prop
  | [] => True
  | (_, v) :: ms => Printable v ∧ MembersPrintable ms

end

theorem printable_array {items : List Value} :
    (array items).Printable ↔ ∀ v ∈ items, v.Printable := by
  rw [Printable]
  induction items with
  | nil => simp [ItemsPrintable]
  | cons v vs ih => simp [ItemsPrintable, ih]

theorem printable_object {members : List (Text × Value)} :
    (object members).Printable ↔ ∀ m ∈ members, m.2.Printable := by
  rw [Printable]
  induction members with
  | nil => simp [MembersPrintable]
  | cons m ms ih => simp [MembersPrintable, ih]

theorem WellFormed.printable {v : Value} (hv : v.WellFormed) : v.Printable := by
  induction v using childInduction with
  | null => simp [Printable]
  | bool b => simp [Printable]
  | number t => rwa [Printable]
  | string t => simp [Printable]
  | array items ih =>
    rw [wellFormed_array] at hv
    exact printable_array.mpr fun v hmem => ih v hmem (hv v hmem)
  | object members ih =>
    rw [wellFormed_object] at hv
    exact printable_object.mpr fun m hm => ih m hm (hv m hm).2
  | foreign d => exact hv.elim

end Value

namespace Text

theorem join_singleton (sep t : Text) : join sep [t] = t := by
  simp [join]

theorem join_cons (sep t : Text) (ts : List Text) :
    join sep (t :: ts) = t ++ ts.flatMap (sep ++ ·) := by
  induction ts generalizing t with
  | nil => simp [join]
  | cons s ts ih =>
    have hs := ih s
    simp only [join, List.intersperse_cons_cons, List.flatten_cons, List.flatMap_cons,
      List.append_assoc] at hs ⊢
    rw [hs]

end Text

namespace Layout

/-! ### Shapes entry by entry -/

theorem shapeItems_eq_map (o : LayoutOptions) (level : Nat) (items : List Value) :
    shapeItems o level items = items.map (shape o level) := by
  induction items with
  | nil => rfl
  | cons v vs ih => rw [shapeItems, ih, List.map_cons]

theorem shapeMembers_eq_map (o : LayoutOptions) (level : Nat) (members : List (Text × Value)) :
    shapeMembers o level members = members.map fun m => keyText o m.1 ++ shape o level m.2 := by
  induction members with
  | nil => rfl
  | cons m ms ih => rw [shapeMembers, ih, List.map_cons]

theorem numberText_eq_ok (o : LayoutOptions) {t : Text} (ht : isNumeral t = true) :
    numberText o t = .ok (shownNumber o t) := by
  unfold numberText shownNumber
  cases o.numbers with
  | verbatim => rfl
  | normalized => simp only [normalizeNumber?_eq_some ht, Option.getD_some]

theorem leafText_eq_ok (o : LayoutOptions) (level : Nat) {v : Value} (hv : v.Printable)
    (harray : ∀ u items, v ≠ .array (u :: items))
    (hobject : ∀ m members, v ≠ .object (m :: members)) : leafText o v = .ok (shape o level v) := by
  cases v with
  | null => rfl
  | bool b => cases b <;> rfl
  | number t =>
    rw [Value.Printable] at hv
    rw [leafText, shape, numberText_eq_ok o hv]
  | string t => rfl
  | array items =>
    cases items with
    | nil => rfl
    | cons u items => exact absurd rfl (harray u items)
  | object members =>
    cases members with
    | nil => rfl
    | cons m members => exact absurd rfl (hobject m members)
  | foreign d => exact hv.elim

/-! ### Pieces -/

def Piece.shape (o : LayoutOptions) : Piece → Text
  | .text t => t
  | .node v level => Layout.shape o level v

def Piece.Printable : Piece → Prop
  | .text _ => True
  | .node v _ => v.Printable

theorem shape_arrayPieces (o : LayoutOptions) (level : Nat) (v : Value) (items : List Value) :
    CodePoint.ofChar '[' :: (arrayPieces o level v items).flatMap (Piece.shape o)
      = shape o level (.array (v :: items)) := by
  rw [shape, shapeItems_eq_map, List.map_cons, bracketed, if_neg (by simp), Text.join_cons,
    arrayPieces]
  simp [moreItems, between, Piece.shape, Bracket.opener, Bracket.closer, List.flatMap_assoc,
    List.flatMap_map,
    Text.ofChars]

theorem shape_objectPieces (o : LayoutOptions) (level : Nat) (m : Text × Value)
    (members : List (Text × Value)) :
    CodePoint.ofChar '\x7b' :: (objectPieces o level m members).flatMap (Piece.shape o)
      = shape o level (.object (m :: members)) := by
  rw [shape, shapeMembers_eq_map, List.map_cons, bracketed, if_neg (by simp), Text.join_cons,
    objectPieces]
  simp [moreMembers, between, Piece.shape, Bracket.opener, Bracket.closer, List.flatMap_assoc,
    List.flatMap_map,
    Text.ofChars]

theorem printable_arrayPieces {o : LayoutOptions} {level : Nat} {v : Value} {items : List Value}
    (h : (Value.array (v :: items)).Printable) :
    ∀ p ∈ arrayPieces o level v items, p.Printable := by
  rw [Value.printable_array, List.forall_mem_cons] at h
  have hmore : ∀ p ∈ moreItems o (lineBreak o (level + 1)) (level + 1) items, p.Printable := by
    intro p hp
    obtain ⟨u, hu, hp⟩ := List.mem_flatMap.mp hp
    simp only [List.mem_cons, List.not_mem_nil, or_false] at hp
    rcases hp with rfl | rfl
    · trivial
    · exact h.2 u hu
  simp only [arrayPieces, List.forall_mem_append, List.forall_mem_cons]
  exact ⟨⟨trivial, h.1, hmore⟩, trivial, List.forall_mem_nil _⟩

theorem printable_objectPieces {o : LayoutOptions} {level : Nat} {m : Text × Value}
    {members : List (Text × Value)} (h : (Value.object (m :: members)).Printable) :
    ∀ p ∈ objectPieces o level m members, p.Printable := by
  rw [Value.printable_object, List.forall_mem_cons] at h
  have hmore : ∀ p ∈ moreMembers o (lineBreak o (level + 1)) (level + 1) members, p.Printable := by
    intro p hp
    obtain ⟨u, hu, hp⟩ := List.mem_flatMap.mp hp
    simp only [List.mem_cons, List.not_mem_nil, or_false] at hp
    rcases hp with rfl | rfl | rfl
    · trivial
    · trivial
    · exact h.2 u hu
  simp only [objectPieces, List.forall_mem_append, List.forall_mem_cons]
  exact ⟨⟨trivial, trivial, h.1, hmore⟩, trivial, List.forall_mem_nil _⟩

/-- The printer puts the shapes of the pieces behind what is printed already. -/
theorem renderPieces_eq_ok {o : LayoutOptions} {ps : List Piece} {acc : Text}
    (h : ∀ p ∈ ps, p.Printable) :
    renderPieces o ps acc = .ok (acc.reverse ++ ps.flatMap (Piece.shape o)) := by
  fun_induction renderPieces o ps acc with
  | case1 acc => simp
  | case2 acc t ps ih =>
    rw [List.forall_mem_cons] at h
    rw [ih h.2, List.flatMap_cons, List.reverseAux_eq, List.reverse_append, List.reverse_reverse,
      List.append_assoc]
    rfl
  | case3 acc v items level ps ih =>
    rw [List.forall_mem_cons] at h
    rw [ih (List.forall_mem_append.mpr ⟨printable_arrayPieces h.1, h.2⟩), List.reverse_cons,
      List.append_assoc,
      List.singleton_append, List.flatMap_append, ← List.cons_append, shape_arrayPieces]
    rfl
  | case4 acc m members level ps ih =>
    rw [List.forall_mem_cons] at h
    rw [ih (List.forall_mem_append.mpr ⟨printable_objectPieces h.1, h.2⟩), List.reverse_cons,
      List.append_assoc,
      List.singleton_append, List.flatMap_append, ← List.cons_append, shape_objectPieces]
    rfl
  | case5 acc v level ps harray hobject e hleaf =>
    rw [List.forall_mem_cons] at h
    rw [leafText_eq_ok o level h.1 harray hobject] at hleaf
    simp at hleaf
  | case6 acc v level ps harray hobject t hleaf ih =>
    rw [List.forall_mem_cons] at h
    rw [leafText_eq_ok o level h.1 harray hobject] at hleaf
    obtain rfl := Except.ok.inj hleaf
    rw [ih h.2, List.flatMap_cons, List.reverseAux_eq, List.reverse_append, List.reverse_reverse,
      List.append_assoc]
    rfl

end Layout

/-! ### Whole trees -/

theorem render_eq_ok {o : LayoutOptions} {v : Value} (hindent : checkIndent o.indent = .ok ())
    (hv : v.Printable) : render o v = .ok (Layout.documentShape o v) := by
  have hpieces : ∀ p ∈ [Layout.Piece.node v 0], p.Printable := by
    simpa [Layout.Piece.Printable] using hv
  rw [render, hindent, ok_bind, Layout.renderPieces_eq_ok hpieces, ok_bind, Layout.documentShape]
  cases o.trailingNewline <;> simp [Layout.Piece.shape] <;> rfl

theorem render_eq_error {o : LayoutOptions} {p : Problem}
    (hindent : checkIndent o.indent = .error p) (v : Value) : render o v = .error p := by
  rw [render, hindent, error_bind]

end CanonJson
