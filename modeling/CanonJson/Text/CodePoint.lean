/-!
# Code points and texts

A text is a list of code points with the surrogates admitted, because strings handed to this library
may hold lone surrogates and have to survive until something encodes them. A text in which no
surrogate occurs is `Text.SurrogateFree`; exactly those texts have UTF-8 and UTF-16 forms.
-/

namespace CanonJson

/-- A Unicode code point, surrogates included. -/
structure CodePoint where
  val : Nat
  val_lt : val < 0x110000
deriving DecidableEq

namespace CodePoint

def ofChar (c : Char) : CodePoint :=
  ⟨c.toNat, by
    rcases c.valid with h | h
    · exact Nat.lt_trans h (by decide)
    · exact h.2⟩

instance : Coe Char CodePoint := ⟨ofChar⟩

/-- The code point with the given number, or the replacement character beyond the last one. -/
def ofNat (n : Nat) : CodePoint :=
  if h : n < 0x110000 then ⟨n, h⟩ else ⟨0xFFFD, by decide⟩

/-- Whether the code point is the given character. -/
def is (c : CodePoint) (ch : Char) : Bool :=
  c.val == ch.toNat

/-- Whether the code point lies in `U+D800..U+DFFF`. -/
def isSurrogate (c : CodePoint) : Bool :=
  0xD800 ≤ c.val && c.val ≤ 0xDFFF

/-- The character of a code point, with the replacement character for a surrogate. -/
def toChar (c : CodePoint) : Char :=
  if c.isSurrogate then Char.ofNat 0xFFFD else Char.ofNat c.val

def isDigit (c : CodePoint) : Bool :=
  0x30 ≤ c.val && c.val ≤ 0x39

def digitValue (c : CodePoint) : Nat :=
  c.val - 0x30

/-- The ASCII digit of a number below ten. -/
def ofDigit (d : Nat) : CodePoint :=
  ofNat (0x30 + d)

/-- The value of an ASCII hexadecimal digit, in either case. -/
def hexValue? (c : CodePoint) : Option Nat :=
  if c.isDigit then some (c.val - 0x30)
  else if 0x61 ≤ c.val ∧ c.val ≤ 0x66 then some (c.val - 0x57)
  else if 0x41 ≤ c.val ∧ c.val ≤ 0x46 then some (c.val - 0x37)
  else none

/-- The lowercase form of an ASCII letter; every other code point is kept. -/
def toLowerAscii (c : CodePoint) : CodePoint :=
  if 0x41 ≤ c.val ∧ c.val ≤ 0x5A then ofNat (c.val + 0x20) else c

theorem is_iff {c : CodePoint} {ch : Char} : c.is ch = true ↔ c = ofChar ch := by
  cases c
  simp [is, ofChar]

end CodePoint

/-- A sequence of code points. -/
abbrev Text := List CodePoint

/-- A sequence of octets. -/
abbrev Bytes := List UInt8

namespace Text

def ofChars (cs : List Char) : Text :=
  cs.map CodePoint.ofChar

/-- The text of a string. -/
def ofString (s : String) : Text :=
  ofChars s.toList

instance : Coe String Text := ⟨ofString⟩

/-- The string of a text, with the replacement character for each surrogate. -/
def toString (t : Text) : String :=
  String.ofList (t.map CodePoint.toChar)

/-- No surrogate occurs in the text. -/
def SurrogateFree (t : Text) : Prop :=
  ∀ c ∈ t, c.isSurrogate = false

instance (t : Text) : Decidable t.SurrogateFree :=
  inferInstanceAs (Decidable (∀ c ∈ t, c.isSurrogate = false))

/-- The decimal digits of a natural number, without leading zeros. -/
def ofNat (n : Nat) : Text :=
  ofString (Nat.repr n)

def ofInt : Int → Text
  | .ofNat n => ofNat n
  | .negSucc n => CodePoint.ofChar '-' :: ofNat (n + 1)

def hexDigit (upper : Bool) (d : Nat) : CodePoint :=
  if d < 10 then .ofDigit d else .ofNat ((if upper then 0x37 else 0x57) + d)

/-- The last `width` hexadecimal digits of a number. -/
def hex (upper : Bool) (width : Nat) (n : Nat) : Text :=
  (List.range width).reverse.map fun i => hexDigit upper (n / Nat.pow 16 i % 16)

/-- The hexadecimal digits of a number, at least `width` of them. -/
def hexAtLeast (upper : Bool) (width : Nat) (n : Nat) : Text :=
  hex upper (max width (Nat.toDigits 16 n).length) n

def startsWith (t : Text) (cs : List Char) : Bool :=
  (ofChars cs).isPrefixOf t

/-- The texts, with a separator between neighbours. -/
def join (sep : Text) (ts : List Text) : Text :=
  (ts.intersperse sep).flatten

/-- The parts between occurrences of a code point; at least one part. -/
def splitOn (sep : CodePoint) (t : Text) : List Text :=
  (t.foldr (fun c (parts : Text × List Text) =>
    if c = sep then ([], parts.1 :: parts.2) else (c :: parts.1, parts.2)) ([], [])) |> fun p => p.1 :: p.2

/-- The text, with spaces added on the right up to a width. -/
def padRight (width : Nat) (t : Text) : Text :=
  t ++ List.replicate (width - t.length) (CodePoint.ofChar ' ')

end Text

end CanonJson
