import CanonJson.Number.Digits
/-!
# JSON numbers

A numeral is JSON number text taken apart: `-?(0|[1-9][0-9]*)([.][0-9]+)?([eE][+-]?[0-9]+)?`. Its
parts give its exact value, the sign times `0.digits` times ten to the power `point`, whatever the
length of its digits and its exponent.
-/

namespace CanonJson

/-- JSON number text taken apart; an absent fraction or exponent has no digits. -/
structure Numeral where
  negative : Bool
  integer : Text
  fraction : Text
  exponentNegative : Bool
  exponent : Text

namespace Numeral

/-- The digits in front, and what follows them. -/
def spanDigits (t : Text) : Text × Text :=
  (t.takeWhile CodePoint.isDigit, t.dropWhile CodePoint.isDigit)

/-- Whether digits may stand before the point: no zero in front of another digit. -/
def isInteger (digits : Text) : Bool :=
  match digits with
  | [] => false
  | c :: rest => rest.isEmpty || !c.is '0'

/-- The sign in front of a number, and what follows it. -/
def readSign (t : Text) : Bool × Text :=
  match t with
  | c :: rest => if c.is '-' then (true, rest) else (false, t)
  | [] => (false, t)

/-- The fraction in front, if there is one, and what follows it. -/
def readFraction? (t : Text) : Option (Text × Text) :=
  match t with
  | c :: rest =>
    if c.is '.' then
      let (digits, rest') := spanDigits rest
      if digits.isEmpty then none else some (digits, rest')
    else some ([], t)
  | [] => some ([], [])

/-- The exponent in front, if there is one: whether it is negative, its digits, what follows. -/
def readExponent? (t : Text) : Option (Bool × Text × Text) :=
  match t with
  | c :: rest =>
    if c.is 'e' || c.is 'E' then
      let (negative, rest') :=
        match rest with
        | s :: rest' => if s.is '-' then (true, rest') else if s.is '+' then (false, rest') else (false, rest)
        | [] => (false, rest)
      let (digits, rest'') := spanDigits rest'
      if digits.isEmpty then none else some (negative, digits, rest'')
    else some (false, [], t)
  | [] => some (false, [], [])

/-- The numeral that a text spells, if the whole text is JSON number text. -/
def ofText? (t : Text) : Option Numeral :=
  let (negative, t₁) := readSign t
  let (integer, t₂) := spanDigits t₁
  if isInteger integer then
    match readFraction? t₂ with
    | none => none
    | some (fraction, t₃) =>
      match readExponent? t₃ with
      | some (exponentNegative, exponent, []) =>
        some ⟨negative, integer, fraction, exponentNegative, exponent⟩
      | _ => none
  else none

/-- The power of ten that the exponent stands for. -/
def shift (n : Numeral) : Int :=
  if n.exponentNegative then -(Digits.value n.exponent : Int) else Digits.value n.exponent

end Numeral

def isNumeral (t : Text) : Bool :=
  (Numeral.ofText? t).isSome

/-- The exact value of a number: the sign times `0.digits` times ten to the power `point`. The digits
have no zero at either end, and zero has no digits at all. -/
structure NumberParts where
  negative : Bool
  digits : Text
  point : Int
deriving DecidableEq

namespace NumberParts

def zero : NumberParts := ⟨false, [], 0⟩

/-- The text without the zeros at its front. -/
def stripLeft (t : Text) : Text :=
  t.dropWhile (·.is '0')

/-- The text without the zeros at its back. -/
def stripRight (t : Text) : Text :=
  (t.reverse.dropWhile (·.is '0')).reverse

/-- The exact value of a numeral. -/
def ofNumeral (n : Numeral) : NumberParts :=
  let digits := n.integer ++ n.fraction
  let significant := stripLeft digits
  let point := (n.integer.length : Int) + n.shift - ((digits.length - significant.length : Nat) : Int)
  let stripped := stripRight significant
  if stripped.isEmpty then zero else ⟨n.negative, stripped, point⟩

/-- The exact value of JSON number text. -/
def ofText? (t : Text) : Option NumberParts :=
  (Numeral.ofText? t).map ofNumeral

end NumberParts

end CanonJson
