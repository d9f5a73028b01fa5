import CanonJson.Number.Numeral
/-!
# Normalized number text

One spelling for each value: plain digits for integers of up to 21 places, a fixed point from
`0.000001` up, and `d.ddde+N` or `d.ddde-N` otherwise. Every significant digit is kept.
-/

namespace CanonJson

namespace NumberParts

def zeros (n : Nat) : Text :=
  List.replicate n (CodePoint.ofChar '0')

/-- The spelling of a magnitude with the given digits. -/
def magnitudeText (digits : Text) (point : Int) : Text :=
  let count : Int := digits.length
  if count ≤ point ∧ point ≤ 21 then digits ++ zeros (point - count).toNat
  else if 0 < point ∧ point ≤ 21 then
    digits.take point.toNat ++ CodePoint.ofChar '.' :: digits.drop point.toNat
  else if -6 < point ∧ point ≤ 0 then
    Text.ofChars ['0', '.'] ++ zeros (-point).toNat ++ digits
  else
    let power := point - 1
    let mantissa :=
      if digits.length > 1 then digits.take 1 ++ CodePoint.ofChar '.' :: digits.drop 1 else digits
    mantissa ++ Text.ofChars ['e', if power ≥ 0 then '+' else '-'] ++ Digits.ofNat power.natAbs

/-- The normalized spelling of a value. -/
def toText (p : NumberParts) : Text :=
  if p.digits.isEmpty then Text.ofChars ['0']
  else if p.negative then CodePoint.ofChar '-' :: magnitudeText p.digits p.point
  else magnitudeText p.digits p.point

end NumberParts

/-- The normalized spelling of JSON number text. -/
def normalizeNumber? (t : Text) : Option Text :=
  (NumberParts.ofText? t).map NumberParts.toText

end CanonJson
