import CanonJson.Text.CodePoint
/-!
# Blanks

Two classes of blank around a number. `isBlank` is every white space character of Unicode together
with the four information separators; `isMargin` leaves those four out.
-/

namespace CanonJson.Text

/-- White space, the information separators `U+001C..U+001F` included. -/
def isBlank (c : CodePoint) : Bool :=
  let v := c.val
  (0x09 ≤ v && v ≤ 0x0D) || (0x1C ≤ v && v ≤ 0x20) || v == 0x85 || v == 0xA0 || v == 0x1680
    || (0x2000 ≤ v && v ≤ 0x200A) || v == 0x2028 || v == 0x2029 || v == 0x202F || v == 0x205F
    || v == 0x3000

/-- White space other than the information separators. -/
def isMargin (c : CodePoint) : Bool :=
  isBlank c && !(0x1C ≤ c.val && c.val ≤ 0x1F)

/-- The text without the code points of a class at its two ends. -/
def trim (p : CodePoint → Bool) (t : Text) : Text :=
  ((t.dropWhile p).reverse.dropWhile p).reverse

end CanonJson.Text
