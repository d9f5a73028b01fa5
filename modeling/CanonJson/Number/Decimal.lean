import CanonJson.Number.Digits
/-!
# Scientific decimals

A sign, a coefficient and a power of ten, together with infinities and not-a-numbers. The text form
is the scientific string of the decimal arithmetic standards: trailing zeros and the sign of zero are
kept, and an exponent appears when the point would stand far from the digits.
-/

namespace CanonJson

/-- A decimal number; the finite ones are the sign times `coefficient` times ten to `exponent`. -/
inductive Decimal where
  | finite (negative : Bool) (coefficient : Nat) (exponent : Int)
  | infinite (negative : Bool)
  | nan (negative : Bool) (signaling : Bool) (payload : Text)
deriving DecidableEq

/-- Why a text denotes no decimal. -/
inductive DecimalError where
  | malformed
  | outOfRange
deriving DecidableEq

namespace Decimal

/-- The number of digits of a coefficient; zero has one. -/
def digitCount (coefficient : Nat) : Nat :=
  (Nat.repr coefficient).length

/-- The largest exponent of a leading digit. -/
def maxExponent : Int := 999999999999999999

/-- The smallest exponent of a last digit. -/
def minExponent : Int := -1999999999999999997

/-- The finite decimal, if its exponent is in range. -/
def finite? (negative : Bool) (coefficient : Nat) (exponent : Int) : Except DecimalError Decimal :=
  if exponent + digitCount coefficient - 1 > maxExponent ∨ exponent < minExponent then
    .error .outOfRange
  else .ok (.finite negative coefficient exponent)

/-- The digits of any script as ASCII digits; other ASCII characters are kept and the rest refused. -/
def foldScripts? (t : Text) : Option Text :=
  t.mapM fun c =>
    if 0 < c.val ∧ c.val < 0x80 then some c
    else (Text.decimalDigit? c).map CodePoint.ofDigit

/-- The digits in front, and what follows them. -/
def spanDigits (t : Text) : Text × Text :=
  (t.takeWhile CodePoint.isDigit, t.dropWhile CodePoint.isDigit)

/-- An optional sign in front: whether it is a minus, and what follows it. -/
def readSign (t : Text) : Bool × Text :=
  match t with
  | c :: rest => if c.is '-' then (true, rest) else if c.is '+' then (false, rest) else (false, t)
  | [] => (false, t)

/-- The exponent at the end of a number; an absent one is zero. -/
def readExponent? (t : Text) : Option Int :=
  match t with
  | [] => some 0
  | c :: rest =>
    if c.is 'e' || c.is 'E' then
      let (negative, digits) := readSign rest
      if digits.isEmpty || !digits.all CodePoint.isDigit then none
      else some (if negative then -(Digits.value digits : Int) else Digits.value digits)
    else none

/-- A number without its sign: its coefficient and its exponent. A point may stand before, between
or behind the digits, of which there is at least one. -/
def readMagnitude? (t : Text) : Option (Nat × Int) :=
  let (integer, t₁) := spanDigits t
  let (fraction, t₂) :=
    match t₁ with
    | c :: rest => if c.is '.' then spanDigits rest else ([], t₁)
    | [] => ([], [])
  if integer.isEmpty && fraction.isEmpty then none
  else (readExponent? t₂).map fun e => (Digits.value (integer ++ fraction), e - fraction.length)

def isWord (t : Text) (w : String) : Bool :=
  t.map CodePoint.toLowerAscii = Text.ofString w

/-- The payload of a not-a-number whose name is the given word. -/
def readPayload? (word : String) (t : Text) : Option Text :=
  let digits := t.drop word.length
  if isWord (t.take word.length) word && digits.all CodePoint.isDigit then
    some (digits.dropWhile (·.is '0'))
  else none

/-- The decimal that a text denotes: blanks around it and underscores anywhere are ignored. -/
def ofText (t : Text) : Except DecimalError Decimal :=
  match foldScripts? ((Text.trim Text.isBlank t).filter fun c => !c.is '_') with
  | none => .error .malformed
  | some t =>
    let (negative, body) := readSign t
    if isWord body "inf" || isWord body "infinity" then .ok (.infinite negative)
    else match readPayload? "nan" body with
      | some payload => .ok (.nan negative false payload)
      | none => match readPayload? "snan" body with
        | some payload => .ok (.nan negative true payload)
        | none => match readMagnitude? body with
          | some (coefficient, exponent) => finite? negative coefficient exponent
          | none => .error .malformed

def isFinite : Decimal → Bool
  | .finite .. => true
  | _ => false

/-- The spelling of a magnitude: plain with `-exponent` fraction digits while the exponent is not
positive and the leading digit stands no further than the sixth place, scientific otherwise. -/
def magnitudeText (coefficient : Nat) (exponent : Int) : Text :=
  let digits := Text.ofNat coefficient
  let leading := exponent + digits.length - 1
  if exponent ≤ 0 ∧ leading ≥ -6 then
    let places := (-exponent).toNat
    if places = 0 then digits
    else
      let padded := Digits.zeroFill (places + 1) digits
      padded.take (padded.length - places) ++ CodePoint.ofChar '.' :: padded.drop (padded.length - places)
  else
    let mantissa :=
      if digits.length > 1 then digits.take 1 ++ CodePoint.ofChar '.' :: digits.drop 1 else digits
    mantissa ++ Text.ofChars ['E', if leading ≥ 0 then '+' else '-'] ++ Text.ofNat leading.natAbs

/-- The text behind a minus sign, if there is one. -/
def signed (negative : Bool) (t : Text) : Text :=
  if negative then CodePoint.ofChar '-' :: t else t

def toText : Decimal → Text
  | .finite negative coefficient exponent => signed negative (magnitudeText coefficient exponent)
  | .infinite negative => signed negative "Infinity"
  | .nan negative false payload => signed negative ("NaN" ++ payload)
  | .nan negative true payload => signed negative ("sNaN" ++ payload)

end Decimal

end CanonJson
