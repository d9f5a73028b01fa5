import CanonJson.Text.Blank
import CanonJson.Text.DecimalDigit
/-!
# Digit strings and integers

Conversions between integers and their decimal digits, a thousand digits at a time, so that no number
is too long for them. Reading is lenient within a piece: blanks around it, a sign, digits of any
script, and single underscores between digits.
-/

namespace CanonJson.Digits

def value (t : Text) : Nat :=
  t.foldl (fun n c => 10 * n + c.digitValue) 0

/-- Digits with single underscores between them; `afterDigit` says that a digit stands before. -/
def readGrouped? : Text → Nat → Bool → Option Nat
  | [], n, afterDigit => if afterDigit then some n else none
  | c :: rest, n, afterDigit =>
    match Text.decimalDigit? c with
    | some d => readGrouped? rest (10 * n + d) true
    | none => if c.is '_' && afterDigit then readGrouped? rest n false else none

/-- An integer with blanks around it, an optional sign, and digits in groups. -/
def readInteger? (t : Text) : Option Int :=
  match Text.trim Text.isMargin t with
  | [] => none
  | c :: rest =>
    if c.is '-' then (readGrouped? rest 0 false).map fun n => -Int.ofNat n
    else if c.is '+' then (readGrouped? rest 0 false).map Int.ofNat
    else (readGrouped? (c :: rest) 0 false).map Int.ofNat

/-- The longest integer text that is converted in one piece. -/
def limit : Nat := 4300

/-- `readInteger?` for texts of at most `limit` digits. -/
def readBounded? (t : Text) : Option Int :=
  if (t.countP fun c => (Text.decimalDigit? c).isSome) ≤ limit then readInteger? t else none

/-- The number of digits converted at a time. -/
def pieceLength : Nat := 1000

/-- The list cut into pieces of `n + 1` elements, the last one possibly shorter. -/
def pieces {α : Type} (n : Nat) (l : List α) : List (List α) :=
  match l with
  | [] => []
  | a :: l' => (a :: l'.take n) :: pieces n (l'.drop n)
termination_by l.length
decreasing_by
  rw [List.length_drop, List.length_cons]
  omega

/-- The integer that a text denotes piece by piece; the first piece that denotes none otherwise. -/
def toInt (t : Text) : Except Text Int :=
  (pieces (pieceLength - 1) t).foldlM
    (fun n piece =>
      match readInteger? piece with
      | some k => .ok (n * Nat.pow 10 piece.length + k)
      | none => .error piece)
    0

/-- The text with zeros added on the left up to a width. -/
def zeroFill (width : Nat) (t : Text) : Text :=
  List.replicate (width - t.length) (CodePoint.ofChar '0') ++ t

/-- One more than the largest number that a full piece writes. -/
def pieceBase : Nat := Nat.pow 10 pieceLength

private theorem one_lt_pow_ten {k : Nat} (hk : k ≠ 0) : 1 < Nat.pow 10 k :=
  Nat.one_lt_pow hk (by decide)

private theorem pieceBase_gt_one : 1 < pieceBase := by
  have hk : pieceLength ≠ 0 := by decide
  unfold pieceBase
  exact one_lt_pow_ten hk

/-- The decimal digits of a natural number of any length, without leading zeros. -/
def ofNat (n : Nat) : Text :=
  if n < pieceBase then Text.ofNat n
  else ofNat (n / pieceBase) ++ zeroFill pieceLength (Text.ofNat (n % pieceBase))
termination_by n
decreasing_by
  exact Nat.div_lt_self (Nat.lt_of_lt_of_le (Nat.lt_trans Nat.zero_lt_one pieceBase_gt_one)
    (Nat.le_of_not_lt (by assumption))) pieceBase_gt_one

/-- The decimal digits of an integer converted in one piece: none beyond `limit` digits. -/
def ofIntBounded? (n : Int) : Option Text :=
  if n.natAbs < Nat.pow 10 limit then some (Text.ofInt n) else none

/-- The decimal digits of an integer; a negative one is converted in one piece. -/
def ofInt? : Int → Option Text
  | .ofNat n => some (ofNat n)
  | .negSucc n => ofIntBounded? (.negSucc n)

end CanonJson.Digits
