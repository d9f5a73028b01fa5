import CanonJson.Text.Quoted
/-!
# What can be wrong with a document

A fault is the cause of a refusal, with a code for programs and a message for people. Where it lies
is kept apart from it: a `Failure` holds the input from the fault on, and a `ParseError` its offset,
line and column.
-/

namespace CanonJson

/-- The two kinds of container. -/
inductive Bracket where
  | array
  | object
deriving DecidableEq

namespace Bracket

def opener : Bracket → Char
  | .array => '['
  | .object => '\x7b'

def closer : Bracket → Char
  | .array => ']'
  | .object => '\x7d'

end Bracket

/-- What should have come when the input ended. -/
inductive Expected where
  | value
  | key
  | colon
  | separator (b : Bracket)
deriving DecidableEq

/-- The cause of a refusal. -/
inductive Fault where
  | surrogateInput (c : CodePoint)
  | invalidByte (b : UInt8)
  | endOfInput (expected : Expected)
  | unexpectedCharacter (c : CodePoint)
  | unknownWord (word : Text)
  | invalidNumber (token : Text)
  | badHexDigits
  | loneHighSurrogate (unit : Nat)
  | loneLowSurrogate (unit : Nat)
  | unknownEscape (c : CodePoint)
  | controlCharacter (c : CodePoint)
  | unterminatedString
  | notAKey (c : CodePoint)
  | missingColon (c : CodePoint)
  | missingSeparator (b : Bracket) (c : CodePoint)
  | trailingComma (b : Bracket)
  | trailingData (c : CodePoint)
  | tooDeep (limit : Nat)
deriving DecidableEq

/-- The kinds of fault that programs tell apart. -/
inductive FaultCode where
  | invalidEncoding
  | unexpectedEnd
  | trailingData
  | tooDeep
  | unexpectedCharacter
  | invalidNumber
  | invalidEscape
  | controlCharacter
  | unterminatedString
  | expectedKey
  | expectedColon
  | expectedSeparator
  | trailingComma
deriving DecidableEq

def FaultCode.name : FaultCode → String
  | .invalidEncoding => "INVALID_ENCODING"
  | .unexpectedEnd => "UNEXPECTED_EOF"
  | .trailingData => "TRAILING_DATA"
  | .tooDeep => "TOO_DEEP"
  | .unexpectedCharacter => "UNEXPECTED_CHARACTER"
  | .invalidNumber => "INVALID_NUMBER"
  | .invalidEscape => "INVALID_ESCAPE"
  | .controlCharacter => "CONTROL_CHARACTER"
  | .unterminatedString => "UNTERMINATED_STRING"
  | .expectedKey => "EXPECTED_KEY"
  | .expectedColon => "EXPECTED_COLON"
  | .expectedSeparator => "EXPECTED_SEPARATOR"
  | .trailingComma => "TRAILING_COMMA"

namespace Fault

def code : Fault → FaultCode
  | .surrogateInput _ | .invalidByte _ => .invalidEncoding
  | .endOfInput _ => .unexpectedEnd
  | .unexpectedCharacter _ | .unknownWord _ => .unexpectedCharacter
  | .invalidNumber _ => .invalidNumber
  | .badHexDigits | .loneHighSurrogate _ | .loneLowSurrogate _ | .unknownEscape _ => .invalidEscape
  | .controlCharacter _ => .controlCharacter
  | .unterminatedString => .unterminatedString
  | .notAKey _ => .expectedKey
  | .missingColon _ => .expectedColon
  | .missingSeparator .. => .expectedSeparator
  | .trailingComma _ => .trailingComma
  | .trailingData _ => .trailingData
  | .tooDeep _ => .tooDeep

private def shownPoint (c : CodePoint) : Text :=
  Text.quoted [c]

private def shownCloser (b : Bracket) : Text :=
  Text.quoted (Text.ofChars [b.closer])

private def shownExpected : Expected → Text
  | .value => "a value"
  | .key => "an object key"
  | .colon => "':'"
  | .separator b => "',' or " ++ shownCloser b

def message : Fault → Text
  | .surrogateInput c => "lone surrogate U+" ++ Text.hexAtLeast true 4 c.val ++ " in input"
  | .invalidByte b => "invalid UTF-8 byte 0x" ++ Text.hex false 2 b.toNat
  | .endOfInput e => "unexpected end of input, expected " ++ shownExpected e
  | .unexpectedCharacter c => "unexpected character " ++ shownPoint c ++ ", expected a value"
  | .unknownWord w => "invalid literal " ++ Text.quoted w ++ ", expected a value"
  | .invalidNumber t => "invalid number " ++ Text.quoted t
  | .badHexDigits => "invalid \\u escape, expected four hex digits"
  | .loneHighSurrogate u => "lone high surrogate \\u" ++ Text.hex false 4 u
  | .loneLowSurrogate u => "lone low surrogate \\u" ++ Text.hex false 4 u
  | .unknownEscape c => "invalid escape '\\" ++ [c] ++ "'"
  | .controlCharacter c =>
    "unescaped control character U+" ++ Text.hexAtLeast true 4 c.val ++ " in string"
  | .unterminatedString => "unterminated string"
  | .notAKey c => "expected string key, found " ++ shownPoint c
  | .missingColon c => "expected ':' after object key, found " ++ shownPoint c
  | .missingSeparator b c => "expected ',' or " ++ shownCloser b ++ ", found " ++ shownPoint c
  | .trailingComma b => "trailing comma before " ++ shownCloser b
  | .trailingData c => "unexpected " ++ shownPoint c ++ " after end of document"
  | .tooDeep limit => "maximum nesting depth of " ++ Text.ofNat limit ++ " exceeded"

end Fault

/-- A fault together with the input from where it lies. -/
structure Failure where
  fault : Fault
  rest : Text

/-- A located fault. The offset counts code points, or octets if the input is not UTF-8; line and
column count from one. -/
structure ParseError where
  fault : Fault
  offset : Nat
  line : Nat
  column : Nat
deriving DecidableEq

namespace ParseError

/-- The line and the column just behind a text. -/
def position (before : Text) : Nat × Nat :=
  (before.countP (·.is '\n') + 1, (before.reverse.takeWhile fun c => !c.is '\n').length + 1)

/-- The fault that lies just behind the text `before`. -/
def behind (fault : Fault) (offset : Nat) (before : Text) : ParseError :=
  let (line, column) := position before
  ⟨fault, offset, line, column⟩

/-- The located form of a failure in a text. -/
def ofFailure (input : Text) (f : Failure) : ParseError :=
  let offset := input.length - f.rest.length
  behind f.fault offset (input.take offset)

def text (e : ParseError) : Text :=
  e.fault.message ++ " at line " ++ Text.ofNat e.line ++ " column " ++ Text.ofNat e.column

end ParseError

end CanonJson
