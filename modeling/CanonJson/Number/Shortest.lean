import CanonJson.Number.Binary64
/-!
# Shortest decimal text of a binary number

The fewest decimal digits that read back as the same binary64 number, and of those the nearest to it.
For one digit, then two, and so on, the two decimals of that length around the number are tested
against the interval of reals that round to it.
-/

namespace CanonJson.Binary64

/-- The numbers that round to `x`, as integers over a common denominator: the number itself, the
ends of the interval, and the denominator. -/
structure Interval where
  mid : Nat
  low : Nat
  high : Nat
  den : Nat
  closed : Bool

/-- The interval of a positive finite number, in quarters of its last place. -/
def interval (x : Binary64) : Interval :=
  let m := x.significand
  let q := x.exponent - 2
  let up := Nat.pow 2 q.toNat
  let below := if x.isNarrowBelow then 1 else 2
  ⟨4 * m * up, (4 * m - below) * up, (4 * m + 2) * up, Nat.pow 2 (-q).toNat, m % 2 == 0⟩

/-- The power of ten of the first digit of `num / den`. -/
def leadingPower (num den : Nat) : Int :=
  if num ≥ den then ((Nat.repr (num / den)).length : Int) - 1
  else -(((List.range 400).find? fun j => den ≤ num * Nat.pow 10 j).getD 400 : Nat)

/-- The interval with `10 ^ step` as the unit. -/
def Interval.rescale (i : Interval) (step : Int) : Interval :=
  let s := Nat.pow 10 (-step).toNat
  ⟨i.mid * s, i.low * s, i.high * s, i.den * Nat.pow 10 step.toNat, i.closed⟩

def Interval.contains (i : Interval) (n : Nat) : Bool :=
  let v := n * i.den
  if i.closed then i.low ≤ v && v ≤ i.high else i.low < v && v < i.high

/-- The integer of the interval nearest to its number, if one of its two neighbours is inside; a tie
goes to the even one. -/
def Interval.nearest? (i : Interval) : Option Nat :=
  let down := i.mid / i.den
  match i.contains down, i.contains (down + 1) with
  | true, true =>
    let r := i.mid % i.den
    if 2 * r < i.den then some down
    else if 2 * r > i.den then some (down + 1)
    else if down % 2 = 0 then some down else some (down + 1)
  | true, false => some down
  | false, true => some (down + 1)
  | false, false => none

/-- The shortest digits of a positive finite number, and the power of ten of the first of them. -/
def shortest (x : Binary64) : Text × Int :=
  let i := x.interval
  let leading := leadingPower i.mid i.den
  let found := (List.range 17).findSome? fun (k : Nat) =>
    ((i.rescale (leading - k)).nearest?).map fun d => (d, leading - (k : Int))
  let (digits, last) := found.getD (0, 0)
  let t := Text.ofNat digits
  let significant := (t.reverse.dropWhile (·.is '0')).reverse
  (significant, last + t.length - 1)

/-- The text of a positive finite number: a fixed point while its first digit stands between the
fourth place behind the point and the sixteenth before it, scientific otherwise. -/
def magnitudeText (x : Binary64) : Text :=
  let (digits, leading) := x.shortest
  if -4 ≤ leading ∧ leading < 16 then
    if leading < 0 then
      Text.ofChars ['0', '.'] ++ List.replicate (-leading - 1).toNat (CodePoint.ofChar '0') ++ digits
    else
      let places := leading.toNat + 1
      let whole := digits.take places ++ List.replicate (places - digits.length) (CodePoint.ofChar '0')
      let part := digits.drop places
      whole ++ CodePoint.ofChar '.' :: (if part.isEmpty then Text.ofChars ['0'] else part)
  else
    let mantissa :=
      if digits.length > 1 then digits.take 1 ++ CodePoint.ofChar '.' :: digits.drop 1 else digits
    mantissa ++ Text.ofChars ['e', if leading < 0 then '-' else '+']
      ++ Digits.zeroFill 2 (Text.ofNat leading.natAbs)

/-- The text of a number: the shortest that reads back, and `inf` and `nan` for the others. -/
def toText (x : Binary64) : Text :=
  if x.isNaN then "nan"
  else
    let magnitude :=
      if !x.isFinite then Text.ofString "inf"
      else if x.significand = 0 then Text.ofChars ['0', '.', '0']
      else x.magnitudeText
    if x.negative then CodePoint.ofChar '-' :: magnitude else magnitude

end CanonJson.Binary64
