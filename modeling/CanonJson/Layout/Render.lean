import CanonJson.Layout.Escape
import CanonJson.Layout.Options
import CanonJson.Number.Normal
import CanonJson.Problem
import CanonJson.Value.Basic
/-!
# Printing a tree

`render` keeps a list of what is still to be printed, text and trees with their level, so depth costs
nothing. A non-empty container puts each entry on a line of its own, one level in; on a single line
the line breaks vanish and the commas may be followed by a space.
-/

namespace CanonJson.Layout

/-- The line break in front of something at a level; nothing on a single line. -/
def lineBreak (o : LayoutOptions) (level : Nat) : Text :=
  match o.indent.unit? with
  | none => []
  | some unit => CodePoint.ofChar '\n' :: (List.replicate level unit).flatten

/-- What stands between two entries, apart from the line break. -/
def separator (o : LayoutOptions) : Text :=
  match o.indent, o.spacing with
  | .singleLine, .spaced => Text.ofChars [',', ' ']
  | _, _ => Text.ofChars [',']

def colon (o : LayoutOptions) : Text :=
  match o.spacing with
  | .compact => Text.ofChars [':']
  | .spaced => Text.ofChars [':', ' ']

def keyText (o : LayoutOptions) (key : Text) : Text :=
  encodeString o.ascii key ++ colon o

def numberText (o : LayoutOptions) (t : Text) : Except Problem Text :=
  match o.numbers with
  | .verbatim => .ok t
  | .normalized =>
    match normalizeNumber? t with
    | some t' => .ok t'
    | none => .error (.notNumeral t)

def leafText (o : LayoutOptions) : Value → Except Problem Text
  | .null => .ok (Text.ofChars ['n', 'u', 'l', 'l'])
  | .bool true => .ok (Text.ofChars ['t', 'r', 'u', 'e'])
  | .bool false => .ok (Text.ofChars ['f', 'a', 'l', 's', 'e'])
  | .number t => numberText o t
  | .string t => .ok (encodeString o.ascii t)
  | .array _ => .ok (Text.ofChars ['[', ']'])
  | .object _ => .ok (Text.ofChars ['\x7b', '\x7d'])
  | .foreign d => .error (.foreignNode d.typeName)

/-- What is still to be printed: text, or a tree at a level. -/
inductive Piece where
  | text (t : Text)
  | node (v : Value) (level : Nat)

/-- The work that a piece stands for. -/
def Piece.weight : Piece → Nat
  | .text _ => 1
  | .node v _ => v.weight

def piecesWeight : List Piece → Nat
  | [] => 0
  | x :: xs => x.weight + piecesWeight xs

/-- The entries behind the first of an array. -/
def moreItems (o : LayoutOptions) (inner : Text) (level : Nat) (items : List Value) : List Piece :=
  let between := separator o ++ inner
  items.flatMap fun v => [.text between, .node v level]

def moreMembers (o : LayoutOptions) (inner : Text) (level : Nat) (members : List (Text × Value)) :
    List Piece :=
  let between := separator o ++ inner
  members.flatMap fun m => [.text between, .text (keyText o m.1), .node m.2 level]

/-- What a non-empty array at a level prints behind its opening bracket. -/
def arrayPieces (o : LayoutOptions) (level : Nat) (v : Value) (items : List Value) : List Piece :=
  let inner := lineBreak o (level + 1)
  .text inner :: .node v (level + 1) :: moreItems o inner (level + 1) items
    ++ [.text (lineBreak o level ++ Text.ofChars [']'])]

def objectPieces (o : LayoutOptions) (level : Nat) (m : Text × Value) (members : List (Text × Value)) :
    List Piece :=
  let inner := lineBreak o (level + 1)
  .text inner :: .text (keyText o m.1) :: .node m.2 (level + 1) :: moreMembers o inner (level + 1) members
    ++ [.text (lineBreak o level ++ Text.ofChars ['\x7d'])]

theorem piecesWeight_append (ps qs : List Piece) :
    piecesWeight (ps ++ qs) = piecesWeight ps + piecesWeight qs := by
  induction ps with
  | nil => simp [piecesWeight]
  | cons x xs ih =>
    simp only [List.cons_append, piecesWeight, ih]
    omega

theorem piecesWeight_arrayPieces_lt (o : LayoutOptions) (level : Nat) (v : Value) (items : List Value) :
    piecesWeight (arrayPieces o level v items) < (Value.array (v :: items)).weight := by
  have h : ∀ inner l, piecesWeight (moreItems o inner l items) ≤ Value.itemsWeight items := by
    intro inner l
    induction items with
    | nil => simp [moreItems, piecesWeight, Value.itemsWeight]
    | cons v vs ih =>
      simp only [moreItems, List.flatMap_cons, piecesWeight_append, Value.itemsWeight] at ih ⊢
      simp only [piecesWeight, Piece.weight] at ih ⊢
      omega
  have := h (lineBreak o (level + 1)) (level + 1)
  simp only [arrayPieces, piecesWeight_append, Value.weight, Value.itemsWeight] at this ⊢
  simp only [piecesWeight, Piece.weight] at this ⊢
  omega

theorem piecesWeight_objectPieces_lt (o : LayoutOptions) (level : Nat) (m : Text × Value)
    (members : List (Text × Value)) :
    piecesWeight (objectPieces o level m members) < (Value.object (m :: members)).weight := by
  have h : ∀ inner l, piecesWeight (moreMembers o inner l members) ≤ Value.membersWeight members := by
    intro inner l
    induction members with
    | nil => simp [moreMembers, piecesWeight, Value.membersWeight]
    | cons v vs ih =>
      simp only [moreMembers, List.flatMap_cons, piecesWeight_append, Value.membersWeight] at ih ⊢
      simp only [piecesWeight, Piece.weight] at ih ⊢
      omega
  have := h (lineBreak o (level + 1)) (level + 1)
  simp only [objectPieces, piecesWeight_append, Value.weight, Value.membersWeight] at this ⊢
  simp only [piecesWeight, Piece.weight] at this ⊢
  omega

/-- Prints the pieces behind `acc`, which is kept in reverse. -/
def renderPieces (o : LayoutOptions) (ps : List Piece) (acc : Text) : Except Problem Text :=
  match ps with
  | [] => .ok acc.reverse
  | .text t :: ps => renderPieces o ps (t.reverseAux acc)
  | .node (.array (v :: items)) level :: ps =>
    renderPieces o (arrayPieces o level v items ++ ps) (CodePoint.ofChar '[' :: acc)
  | .node (.object (m :: members)) level :: ps =>
    renderPieces o (objectPieces o level m members ++ ps) (CodePoint.ofChar '\x7b' :: acc)
  | .node v _ :: ps =>
    match leafText o v with
    | .error e => .error e
    | .ok t => renderPieces o ps (t.reverseAux acc)
termination_by piecesWeight ps
decreasing_by
  · simp [piecesWeight, Piece.weight]
  · have := piecesWeight_arrayPieces_lt o level v items
    rw [piecesWeight_append]
    simp only [piecesWeight, Piece.weight] at this ⊢
    omega
  · have := piecesWeight_objectPieces_lt o level m members
    rw [piecesWeight_append]
    simp only [piecesWeight, Piece.weight] at this ⊢
    omega
  · have := v.weight_pos
    simp only [piecesWeight, Piece.weight]
    omega

end CanonJson.Layout

namespace CanonJson

/-- Whether the indentation of one level can be made: its length has to be an index, and to fit into
memory. -/
def checkIndent (indent : Indent) : Except Problem Unit :=
  match indent.count? with
  | none => .ok ()
  | some count => do
    checkIndex count
    if count ≥ memoryBound then throw .outOfMemory

/-- The text of a tree. -/
def render (o : LayoutOptions) (v : Value) : Except Problem Text := do
  checkIndent o.indent
  let t ← Layout.renderPieces o [.node v 0] []
  return if o.trailingNewline then t ++ [CodePoint.ofChar '\n'] else t

def encodeText (t : Text) : Except Problem Bytes :=
  match Utf8.encode t with
  | .ok bs => .ok bs
  | .error e => .error (.unencodable e)

def renderBytes (o : LayoutOptions) (v : Value) : Except Problem Bytes := do
  encodeText (← render o v)

end CanonJson
