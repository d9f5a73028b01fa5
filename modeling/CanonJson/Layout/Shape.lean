import CanonJson.Layout.Render
/-!
# The shape of printed trees

The layout by recursion: an empty container is its two brackets, and any other is its opening bracket,
its entries one level in with separators between them, and its closing bracket on the level it started
on.
-/

namespace CanonJson.Layout

/-- The line break and the separator between two entries. -/
def between (o : LayoutOptions) (level : Nat) : Text :=
  separator o ++ lineBreak o level

/-- The number text that the options want, where there is one. -/
def shownNumber (o : LayoutOptions) (t : Text) : Text :=
  match o.numbers with
  | .verbatim => t
  | .normalized => (normalizeNumber? t).getD t

/-- Entries between brackets, each one level in. -/
def bracketed (o : LayoutOptions) (b : Bracket) (level : Nat) (entries : List Text) : Text :=
  if entries.isEmpty then Text.ofChars [b.opener, b.closer]
  else
    CodePoint.ofChar b.opener :: lineBreak o (level + 1) ++ Text.join (between o (level + 1)) entries
      ++ lineBreak o level ++ [CodePoint.ofChar b.closer]

mutual

/-- The text of a tree at a level. -/
def shape (o : LayoutOptions) (level : Nat) : Value → Text
  | .null => Text.ofChars ['n', 'u', 'l', 'l']
  | .bool true => Text.ofChars ['t', 'r', 'u', 'e']
  | .bool false => Text.ofChars ['f', 'a', 'l', 's', 'e']
  | .number t => shownNumber o t
  | .string t => encodeString o.ascii t
  | .array items => bracketed o .array level (shapeItems o (level + 1) items)
  | .object members => bracketed o .object level (shapeMembers o (level + 1) members)
  | .foreign _ => []

def shapeItems (o : LayoutOptions) (level : Nat) : List Value → List Text
  | [] => []
  | v :: vs => shape o level v :: shapeItems o level vs

def shapeMembers (o : LayoutOptions) (level : Nat) : List (Text × Value) → List Text
  | [] => []
  | (k, v) :: ms => (keyText o k ++ shape o level v) :: shapeMembers o level ms

end

/-- The text of a whole tree. -/
def documentShape (o : LayoutOptions) (v : Value) : Text :=
  shape o 0 v ++ if o.trailingNewline then [CodePoint.ofChar '\n'] else []

end CanonJson.Layout
