import CanonJson.Text.CodePoint
/-!
# Options of the printed layout
-/

namespace CanonJson

/-- One document on a single line, or indented by a tab or some spaces for each level. -/
inductive Indent where
  | singleLine
  | tab
  | spaces (count : Nat)
deriving DecidableEq

/-- Whether a space follows a colon, and a comma on a single line. -/
inductive Spacing where
  | compact
  | spaced
deriving DecidableEq

inductive NumberStyle where
  | verbatim
  | normalized
deriving DecidableEq

structure LayoutOptions where
  indent : Indent := .spaces 2
  spacing : Spacing := .spaced
  trailingNewline : Bool := true
  numbers : NumberStyle := .verbatim
  ascii : Bool := false
deriving DecidableEq

def Indent.count? : Indent → Option Nat
  | .spaces count => some count
  | _ => none

/-- The indentation of one level, if there are lines to indent. -/
def Indent.unit? : Indent → Option Text
  | .singleLine => none
  | .tab => some [CodePoint.ofChar '\t']
  | .spaces count => some (List.replicate count (CodePoint.ofChar ' '))

namespace LayoutOptions

/-- A single line without spaces, with the numbers as written. -/
def compact : LayoutOptions :=
  ⟨.singleLine, .compact, false, .verbatim, false⟩

/-- The layout of the JSON Canonicalization Scheme (RFC 8785). -/
def rfc8785 : LayoutOptions :=
  ⟨.singleLine, .compact, false, .normalized, false⟩

end LayoutOptions

end CanonJson
