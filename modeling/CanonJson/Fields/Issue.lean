import CanonJson.Text.Quoted
/-!
# Issues with option fields

Why a field of a set of options is refused, and where. All the issues of a set are reported together.
-/

namespace CanonJson

/-- Why a field is refused. -/
inductive IssueKind where
  | unreadableBool
  | notBool
  | notChoice (choices : List String)
  | notString
  | unreadableString
  | negative
  | fractional
  | notFinite
  | unreadableInteger
  | oversizedInteger
  | notInteger
  | notLiteral (literal : String)
  | unknownField
  | frozen
deriving DecidableEq

namespace IssueKind

def name : IssueKind → String
  | .unreadableBool => "bool_parsing"
  | .notBool => "bool_type"
  | .notChoice _ => "enum"
  | .notString => "string_type"
  | .unreadableString => "string_unicode"
  | .negative => "greater_than_equal"
  | .fractional => "int_from_float"
  | .notFinite => "finite_number"
  | .unreadableInteger => "int_parsing"
  | .oversizedInteger => "int_parsing_size"
  | .notInteger => "int_type"
  | .notLiteral _ => "literal_error"
  | .unknownField => "extra_forbidden"
  | .frozen => "frozen_instance"

private def shownChoices (choices : List String) : Text :=
  Text.join " or " (choices.map fun c => Text.quoted (Text.ofString c))

def message : IssueKind → Text
  | .unreadableBool => "Input should be a valid boolean, unable to interpret input"
  | .notBool => "Input should be a valid boolean"
  | .notChoice choices => "Input should be " ++ shownChoices choices
  | .notString => "Input should be a valid string"
  | .unreadableString => "Input should be a valid string, unable to parse raw data as a unicode string"
  | .negative => "Input should be greater than or equal to 0"
  | .fractional => "Input should be a valid integer, got a number with a fractional part"
  | .notFinite => "Input should be a finite number"
  | .unreadableInteger => "Input should be a valid integer, unable to parse string as an integer"
  | .oversizedInteger => "Unable to parse input string as an integer, exceeded maximum size"
  | .notInteger => "Input should be a valid integer"
  | .notLiteral literal => "Input should be " ++ Text.quoted literal
  | .unknownField => "Extra inputs are not permitted"
  | .frozen => "Instance is frozen"

end IssueKind

/-- An issue and the path to where it lies. -/
structure Issue where
  kind : IssueKind
  place : List Text

end CanonJson
