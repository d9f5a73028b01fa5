import CanonJson.Fields.Issue
import CanonJson.Layout.Options
import CanonJson.Order.Options
import CanonJson.Problem
/-!
# Options from named fields

Options handed in as named data. Fields are read leniently: truth values and integers also from
numbers and from texts that spell them. Fields that are absent keep their defaults, and unknown ones
are refused.
-/

namespace CanonJson.Fields

/-- The text of a string or of octets that spell one. -/
def textOf? : Datum → Except IssueKind (Option Text)
  | .scalar (.text t) => if t.any CodePoint.isSurrogate then .error .unreadableString else .ok (some t)
  | .scalar (.bytes bs) => .ok (Utf8.decode? bs)
  | _ => .ok none

/-! ### Integers -/

/-- The text without a point and zeros at its end. -/
def dropDecimalZeros (t : Text) : Text :=
  let whole := t.takeWhile fun c => !c.is '.'
  let zeros := t.drop (whole.length + 1)
  if !zeros.isEmpty && zeros.all (·.is '0') then whole else t

private def isNonzeroDigit (c : CodePoint) : Bool :=
  c.isDigit && !c.is '0'

/-- The text without leading zeros, underscores among them included; of zeros alone the last code
point stays. Behind zeros the number may also begin with a minus sign. Nothing if it does not begin
like a number. -/
def dropLeadingZeros? (t : Text) : Option Text :=
  match t with
  | [] => none
  | c :: rest =>
    if isNonzeroDigit c then some t
    else if !c.is '0' then none
    else
      match rest.dropWhile fun d => d.is '0' || d.is '_' with
      | [] => some (t.drop rest.length)
      | d :: digits => if isNonzeroDigit d || d.is '-' then some (d :: digits) else none

private def isGrouped : Text → Bool → Bool
  | [], afterDigit => afterDigit
  | c :: rest, afterDigit => if c.is '_' then afterDigit && isGrouped rest false else isGrouped rest true

/-- The text without its underscores, if each stands alone between other code points. -/
def dropUnderscores (t : Text) : Text :=
  if isGrouped t false then t.filter fun c => !c.is '_' else t

/-- The number that digits denote, of which there is at least one. They are limited in number, and
only zero itself begins with a zero. -/
def naturalOfNumeral (t : Text) : Except IssueKind Nat :=
  let digits := t.takeWhile CodePoint.isDigit
  if digits.isEmpty then .error .unreadableInteger
  else if (digits.take 1).any (·.is '0') then
    if t.length = 1 then .ok 0 else .error .unreadableInteger
  else if digits.length > Digits.limit then .error .oversizedInteger
  else if digits.length < t.length then .error .unreadableInteger
  else .ok (Digits.value digits)

/-- The integer that a numeral denotes: a minus sign may stand in front of the digits. -/
def integerOfNumeral (t : Text) : Except IssueKind Int :=
  match t with
  | c :: rest =>
    if c.is '-' then do return -(← naturalOfNumeral rest : Nat)
    else do return (← naturalOfNumeral t : Nat)
  | [] => .error .unreadableInteger

/-- The numeral that a text spells loosely: blanks around it and a plus sign are dropped, then a point
with zeros behind and zeros in front, and last underscores between digits. -/
def looseNumeral? (t : Text) : Option Text :=
  match Text.trim Text.isMargin t with
  | [] => none
  | c :: rest =>
    let body := if c.is '-' || c.is '+' then rest else c :: rest
    (dropLeadingZeros? (dropDecimalZeros body)).map fun significant =>
      let numeral := dropUnderscores significant
      if c.is '-' then c :: numeral else numeral

/-- An integer spelled in a text: a numeral as it stands, or one that is spelled loosely. Only a text
that begins with too many digits is refused for their number. -/
def integerOfText (t : Text) : Except IssueKind Int :=
  match integerOfNumeral t with
  | .error .unreadableInteger =>
    match (looseNumeral? t).map integerOfNumeral with
    | some (.ok n) => .ok n
    | _ => .error .unreadableInteger
  | read => read

/-- The integer that a floating-point number is, within the range of 64 bits. -/
def integerOfFloat (x : Binary64) : Except IssueKind Int :=
  if !x.isFinite then .error .notFinite
  else
    let places := (-x.exponent).toNat
    if x.significand % Nat.pow 2 places ≠ 0 then .error .fractional
    else
      let n := x.significand * Nat.pow 2 x.exponent.toNat / Nat.pow 2 places
      if n < indexBound then .ok (if x.negative then -(n : Int) else n) else .error .oversizedInteger

/-- The integer that a decimal is. -/
def integerOfDecimal : Decimal → Except IssueKind Int
  | .finite negative c e =>
    let places := (-e).toNat
    if c = 0 then .ok 0
    else if places > Decimal.digitCount c then .error .fractional
    else if c % Nat.pow 10 places ≠ 0 then .error .fractional
    else
      let n : Nat := c * Nat.pow 10 e.toNat / Nat.pow 10 places
      .ok (if negative then -(n : Int) else n)
  | _ => .error .notFinite

/-- An integer: also a truth value, a whole number of another kind, or a text that spells one. -/
def readInteger (d : Datum) : Except IssueKind Int :=
  match d with
  | .scalar (.int n) => .ok n
  | .scalar (.bool b) => .ok b.toNat
  | .scalar (.float x) => integerOfFloat x
  | .scalar (.decimal x) => integerOfDecimal x
  | .scalar (.bytes _) | .scalar (.text _) => do
    match ← textOf? d with
    | some t => integerOfText t
    | none => .error .unreadableInteger
  | _ => .error .notInteger

private def readCount (d : Datum) : Except IssueKind Nat := do
  let n ← readInteger d
  if n < 0 then throw .negative else return n.toNat

private def literalIssue (literal : String) : Datum → IssueKind
  | .scalar (.text t) =>
    if t.any CodePoint.isSurrogate then .unreadableString else .notLiteral literal
  | _ => .notLiteral literal

/-- An indentation: nothing, `tab`, or a count; a refusal says why it is neither of the latter. -/
def readIndent (name : Text) (d : Datum) : Except (List Issue) Indent :=
  match d with
  | .scalar .none => .ok .singleLine
  | _ =>
    if d.same (.scalar (.text "tab")) then .ok .tab
    else
      match readCount d with
      | .ok n => .ok (.spaces n)
      | .error kind =>
        .error [⟨kind, [name, "constrained-int"]⟩, ⟨literalIssue "tab" d, [name, "literal['tab']"]⟩]

/-! ### Truth values -/

private def falseWords : List String := ["0", "off", "f", "false", "n", "no"]

private def trueWords : List String := ["1", "on", "t", "true", "y", "yes"]

private def boolOfText (t : Text) : Except IssueKind Bool :=
  let word := t.map CodePoint.toLowerAscii
  if falseWords.any fun w => Text.ofString w = word then .ok false
  else if trueWords.any fun w => Text.ofString w = word then .ok true
  else .error .unreadableBool

private def boolOfInteger (n : Int) : Except IssueKind Bool :=
  if n = 0 then .ok false
  else if n = 1 then .ok true
  else if n < indexBound ∧ -n ≤ indexBound then .error .unreadableBool
  else .error .notBool

private def boolOfFloat (x : Binary64) : Except IssueKind Bool :=
  match integerOfFloat x with
  | .ok n => boolOfInteger n
  | .error _ => .error .notBool

/-- A truth value: also the numbers zero and one, and words for yes and no. A decimal counts as the
nearest floating-point number. -/
def readBool (d : Datum) : Except IssueKind Bool :=
  match d with
  | .scalar (.bool b) => .ok b
  | .scalar (.int n) => boolOfInteger n
  | .scalar (.float x) => boolOfFloat x
  | .scalar (.decimal (.finite negative c e)) => boolOfFloat (.ofDecimal negative c e)
  | .scalar (.bytes _) | .scalar (.text _) => do
    match ← textOf? d with
    | some t => boolOfText t
    | none => .error .unreadableBool
  | _ => .error .notBool

/-! ### Choices and strings -/

/-- One of a few named choices. -/
def readChoice {α : Type} (choices : List (String × α)) (d : Datum) : Except IssueKind α := do
  let refused : Except IssueKind α := .error (.notChoice (choices.map Prod.fst))
  match ← textOf? d with
  | some t =>
    match choices.find? fun c => Text.ofString c.1 = t with
    | some c => .ok c.2
    | none => refused
  | none => refused

/-- A string, or nothing. -/
def readOptionalText : Datum → Except IssueKind (Option Text)
  | .scalar .none => .ok none
  | .scalar (.text t) => .ok (some t)
  | .scalar (.bytes bs) =>
    match Utf8.decode? bs with
    | some t => .ok (some t)
    | none => .error .unreadableString
  | _ => .error .notString

/-! ### Sets of fields -/

/-- The fields by name, in the order they were given. -/
abbrev Given := List (Text × Datum)

private def field {α : Type} (given : Given) (name : String) (default : α)
    (read : Text → Datum → Except (List Issue) α) : StateM (List Issue) α := do
  match given.find? fun f => f.1 = Text.ofString name with
  | none => return default
  | some (n, d) =>
    match read n d with
    | .ok a => return a
    | .error issues =>
      modify (· ++ issues)
      return default

private def single {α : Type} (read : Datum → Except IssueKind α) (name : Text) (d : Datum) :
    Except (List Issue) α :=
  match read d with
  | .ok a => .ok a
  | .error kind => .error [⟨kind, [name]⟩]

private def refuseUnknown (given : Given) (known : List String) : StateM (List Issue) Unit :=
  modify (· ++ (given.filter fun f => !known.any fun k => Text.ofString k = f.1).map fun f =>
    ⟨.unknownField, [f.1]⟩)

private def collect {α : Type} (reading : StateM (List Issue) α) : Except (List Issue) α :=
  match reading.run [] with
  | (a, []) => .ok a
  | (_, issues) => .error issues

def keyOrders : List (String × KeyOrder) := [("codepoint", .codePoint), ("utf16", .utf16)]

def spacings : List (String × Spacing) := [("compact", .compact), ("spaced", .spaced)]

def numberStyles : List (String × NumberStyle) :=
  [("verbatim", .verbatim), ("normalized", .normalized)]

def nameOf {α : Type} [DecidableEq α] (choices : List (String × α)) (a : α) : String :=
  ((choices.find? fun c => c.2 = a).map Prod.fst).getD ""

/-- The options of the canonical order from named fields. -/
def sortOptions (given : Given) : Except (List Issue) SortOptions :=
  collect do
    let sortKeys ← field given "sort_keys" true (single readBool)
    let keyOrder ← field given "key_order" .codePoint (single (readChoice keyOrders))
    let arraysBy ← field given "sort_arrays_by" none (single readOptionalText)
    refuseUnknown given ["sort_keys", "key_order", "sort_arrays_by"]
    return ⟨sortKeys, keyOrder, arraysBy⟩

/-- The options of the layout from named fields. -/
def layoutOptions (given : Given) : Except (List Issue) LayoutOptions :=
  collect do
    let indent ← field given "indent" (.spaces 2) readIndent
    let spacing ← field given "key_value_spacing" .spaced (single (readChoice spacings))
    let trailingNewline ← field given "trailing_newline" true (single readBool)
    let numbers ← field given "number_rendering" .verbatim (single (readChoice numberStyles))
    let ascii ← field given "ensure_ascii" false (single readBool)
    refuseUnknown given
      ["indent", "key_value_spacing", "trailing_newline", "number_rendering", "ensure_ascii"]
    return ⟨indent, spacing, trailingNewline, numbers, ascii⟩

end CanonJson.Fields
