import CanonJson.Text.CodePoint
/-!
# Paths

A path is a root, which is empty for a relative path, and its parts. Empty parts and single dots say
nothing and are dropped; double dots are kept, since what they lead to depends on the directories.
-/

namespace CanonJson

structure Path where
  root : Text
  parts : List Text
deriving DecidableEq

namespace Path

private def slash : CodePoint := CodePoint.ofChar '/'

/-- The root in front of a path: exactly two slashes are a root of their own. -/
def rootOf (t : Text) : Text :=
  match (t.takeWhile (· = slash)).length with
  | 0 => []
  | 2 => [slash, slash]
  | _ => [slash]

def ofText (t : Text) : Path :=
  ⟨rootOf t, (Text.splitOn slash t).filter fun p => !(p.isEmpty || p = Text.ofChars ['.'])⟩

/-- The text of a path; the empty relative path is a dot. -/
def toText (p : Path) : Text :=
  if p.root.isEmpty && p.parts.isEmpty then Text.ofChars ['.']
  else p.root ++ Text.join [slash] p.parts

/-- The part that leads to the directory above. -/
def parentPart : Text := Text.ofChars ['.', '.']

end Path

end CanonJson
