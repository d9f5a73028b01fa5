import CanonJson.Text.CodePoint
/-!
# Options of the canonical order
-/

namespace CanonJson

/-- How keys are compared: by code points, or by UTF-16 code units. -/
inductive KeyOrder where
  | codePoint
  | utf16
deriving DecidableEq

/-- What canonical order means: whether members are sorted, how keys compare, and the member by whose
value arrays are sorted, if any. -/
structure SortOptions where
  sortKeys : Bool := true
  keyOrder : KeyOrder := .codePoint
  arraysBy : Option Text := none
deriving DecidableEq

/-- The order of the JSON Canonicalization Scheme (RFC 8785). -/
def SortOptions.rfc8785 : SortOptions :=
  ⟨true, .utf16, none⟩

end CanonJson
