import CanonJson.Plain.Datum
import CanonJson.Syntax.Fault
/-!
# What can go wrong

Every reason for which reading, ordering, printing or converting gives no result, with its wording.
-/

namespace CanonJson

/-- A reason for giving no result. -/
inductive Problem where
  /-- The document is malformed or too deep. -/
  | malformed (e : ParseError)
  /-- The nesting limit is no positive integer. -/
  | depthLimit (got : Datum)
  /-- The document is neither text nor octets. -/
  | sourceType (typeName : Text)
  /-- A tree holds an object that is no value. -/
  | foreignNode (typeName : Text)
  /-- A number node holds no JSON number text. -/
  | notNumeral (text : Text)
  /-- A piece of an integer text denotes no integer. -/
  | notInteger (piece : Text)
  /-- An integer is too long to be converted in one piece. -/
  | integerTooLong
  /-- A text denotes no decimal. -/
  | decimal (e : DecimalError)
  /-- An infinity or a not-a-number, which no JSON text denotes. -/
  | notFinite (text : Text)
  /-- A surrogate stands where text is to be encoded. -/
  | unencodable (e : EncodeError)
  /-- A container holds itself. -/
  | circular
  /-- A table key is no string. -/
  | keyType (typeName : Text)
  /-- A datum of a type that JSON does not know. -/
  | datumType (typeName : Text)
  /-- A datum that cannot be looked up. -/
  | unhashable (refusal : Datum.LookupRefusal)
  /-- Two data that are not compared. -/
  | incomparable (reason : Incomparable)
  /-- A datum that stands for no octets. -/
  | notOctets (typeName : Text)
  /-- A datum that stands for no single octet. -/
  | notOctet (typeName : Text)
  /-- A number that is no octet. -/
  | octetRange
  /-- A negative number of octets. -/
  | negativeCount
  /-- A count beyond every index. -/
  | countTooLarge
  /-- More octets than a sequence may hold. -/
  | octetsTooLong
  /-- More than there is memory for. -/
  | outOfMemory
  /-- A quotient beyond the floating-point numbers. -/
  | quotientTooLarge
  /-- An option that takes a number is given without one. -/
  | numberNotGiven
  /-- The option for the key order is given without one. -/
  | keyOrderNotGiven

namespace Problem

/-- How much of an unreadable integer text is shown. -/
def shownLength : Nat := 200

/-- The wording of a problem. -/
def message : Problem → Text
  | .malformed e => e.text
  | .depthLimit got => "max_depth must be a positive integer, got " ++ got.shown
  | .sourceType name => "Expected bytes or str, got " ++ name
  | .foreignNode name => "Not a JSON value node: " ++ name
  | .notNumeral t => "Not JSON number text: " ++ Text.quoted t
  | .notInteger t => "invalid literal for int() with base 10: " ++ (Text.quoted t).take shownLength
  | .integerTooLong =>
    "Exceeds the limit (4300 digits) for integer string conversion; use sys.set_int_max_str_digits() to increase the limit"
  | .decimal .malformed => "[<class 'decimal.ConversionSyntax'>]"
  | .decimal .outOfRange => "[<class 'decimal.InvalidOperation'>]"
  | .notFinite t => "Non-finite number cannot be represented in JSON: " ++ t
  | .unencodable e => e.message
  | .circular => "Circular reference detected"
  | .keyType name => "Dictionary keys must be strings, got " ++ name
  | .datumType name =>
    "Non-JSON type: " ++ name
      ++ ". Only None, bool, int, float, Decimal, str, dict, and list are allowed."
  | .unhashable (.type name) => "unhashable type: " ++ Text.quoted name
  | .unhashable .signaling => "Cannot hash a signaling NaN value"
  | .incomparable .signaling => "[<class 'decimal.InvalidOperation'>]"
  | .incomparable .tooDeep => "maximum recursion depth exceeded in comparison"
  | .notOctets name => "cannot convert " ++ Text.quoted name ++ " object to bytes"
  | .notOctet name => Text.quoted name ++ " object cannot be interpreted as an integer"
  | .octetRange => "bytes must be in range(0, 256)"
  | .negativeCount => "negative count"
  | .countTooLarge => "cannot fit 'int' into an index-sized integer"
  | .octetsTooLong => "byte string is too large"
  | .outOfMemory => []
  | .quotientTooLarge => "integer division result too large for a float"
  | .numberNotGiven => "'<' not supported between instances of 'list' and 'int'"
  | .keyOrderNotGiven => "[] is not a valid KeyOrder"

end Problem

/-! ### Sizes -/

/-- One more than the largest index. -/
def indexBound : Nat := 0x8000000000000000

/-- The longest sequence of octets. -/
def maxOctets : Nat := indexBound - 34

/-- How much of anything there is no memory for. Machines differ in
this, and nothing that is stated depends on the value. -/
def memoryBound : Nat := 0x1000000000

/-- Whether a number can count or index something at all. -/
def checkIndex (n : Int) : Except Problem Unit :=
  if n < indexBound ∧ -n ≤ indexBound then .ok () else .error .countTooLarge

end CanonJson
