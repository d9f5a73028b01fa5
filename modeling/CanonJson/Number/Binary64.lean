import CanonJson.Number.Decimal
/-!
# Binary floating point

Numbers of the IEEE 754 format binary64, held by their bits. A finite one is the sign times
`significand` times two to `exponent`. `ofRatio` rounds an exact quotient to the nearest number, ties
to the even significand, and `ofText?` reads a decimal with the same rounding.
-/

namespace CanonJson

/-- A binary64 number by its bits. -/
structure Binary64 where
  bits : UInt64
deriving DecidableEq

namespace Binary64

def negative (x : Binary64) : Bool :=
  Nat.pow 2 63 ≤ x.bits.toNat

private def exponentField (x : Binary64) : Nat :=
  x.bits.toNat / Nat.pow 2 52 % Nat.pow 2 11

private def fractionField (x : Binary64) : Nat :=
  x.bits.toNat % Nat.pow 2 52

def isFinite (x : Binary64) : Bool :=
  x.exponentField < 2047

def isNaN (x : Binary64) : Bool :=
  !x.isFinite && x.fractionField != 0

/-- The integer that a power of two scales. -/
def significand (x : Binary64) : Nat :=
  if x.exponentField = 0 then x.fractionField else Nat.pow 2 52 + x.fractionField

/-- The power of two that scales the significand. -/
def exponent (x : Binary64) : Int :=
  (max x.exponentField 1 : Nat) - 1075

/-- Whether the next number below is half as far away as the next one above. -/
def isNarrowBelow (x : Binary64) : Bool :=
  x.fractionField == 0 && x.exponentField > 1

private def assemble (negative : Bool) (magnitude : Nat) : Binary64 :=
  ⟨UInt64.ofNat ((if negative then Nat.pow 2 63 else 0) + magnitude)⟩

def infinity (negative : Bool) : Binary64 :=
  assemble negative (2047 * Nat.pow 2 52)

/-- A quiet not-a-number. -/
def nan : Binary64 :=
  assemble false (2047 * Nat.pow 2 52 + Nat.pow 2 51)

/-- The quotient of natural numbers rounded to the nearest, a half to the even neighbour. -/
def roundDiv (num den : Nat) : Nat :=
  let q := num / den
  let r := num % den
  if 2 * r < den then q
  else if 2 * r > den then q + 1
  else if q % 2 = 0 then q else q + 1

private def scaled (num den : Nat) (q : Int) : Nat × Nat :=
  if q ≥ 0 then (num, den * Nat.pow 2 q.toNat) else (num * Nat.pow 2 (-q).toNat, den)

/-- The number nearest to a quotient; it is infinite from half a unit beyond the largest on. -/
def ofRatio (negative : Bool) (num den : Nat) : Binary64 :=
  if num = 0 ∨ den = 0 then assemble negative 0
  else
    let guess : Int := max ((Nat.log2 num : Int) - Nat.log2 den - 53) (-1074)
    let (n₀, d₀) := scaled num den guess
    let q := if n₀ / d₀ ≥ Nat.pow 2 53 then guess + 1 else guess
    let (n, d) := scaled num den q
    let m := roundDiv n d
    let (m, q) := if m = Nat.pow 2 53 then (Nat.pow 2 52, q + 1) else (m, q)
    if q > 971 then infinity negative
    else if m < Nat.pow 2 52 then assemble negative m
    else assemble negative ((q + 1075).toNat * Nat.pow 2 52 + (m - Nat.pow 2 52))

/-- The number nearest to `coefficient` times ten to `exponent`. -/
def ofDecimal (negative : Bool) (coefficient : Nat) (exponent : Int) : Binary64 :=
  let leading := exponent + Decimal.digitCount coefficient
  if coefficient = 0 ∨ leading < -400 then assemble negative 0
  else if leading > 400 then infinity negative
  else if exponent ≥ 0 then ofRatio negative (coefficient * Nat.pow 10 exponent.toNat) 1
  else ofRatio negative coefficient (Nat.pow 10 (-exponent).toNat)

/-- The text without the underscores that stand between digits; none if there are others. -/
def dropGrouping? : Text → Bool → Option Text
  | [], _ => some []
  | c :: rest, afterDigit =>
    if c.is '_' then
      match rest with
      | d :: _ => if afterDigit && d.isDigit then dropGrouping? rest false else none
      | [] => none
    else (dropGrouping? rest c.isDigit).map (c :: ·)

private def isWord (t : Text) (w : String) : Bool :=
  t.map CodePoint.toLowerAscii = Text.ofString w

/-- The number that a text denotes: blanks around it, an optional sign, a decimal with underscores
between digits, or `inf`, `infinity` or `nan` in any case. -/
def ofText? (t : Text) : Option Binary64 := do
  let folded ← Decimal.foldScripts? (Text.trim Text.isMargin t)
  let plain ← dropGrouping? folded false
  let (negative, body) := Decimal.readSign plain
  if isWord body "inf" || isWord body "infinity" then return infinity negative
  if isWord body "nan" then return nan
  let (coefficient, exponent) ← Decimal.readMagnitude? body
  return ofDecimal negative coefficient exponent

end Binary64

end CanonJson
