import CanonJson.Value.Basic
/-!
# The grammar of JSON

The grammar of RFC 8259 as relations between a text and what it denotes, stated without any reader.
Numbers denote their own text, strings the code points that their escapes stand for, and containers
their items and members in document order, repeated keys included.
-/

namespace CanonJson.Grammar

/-- Nothing but space, tab, line feed and carriage return. -/
def Space (t : Text) : Prop :=
  ∀ c ∈ t, c = CodePoint.ofChar ' ' ∨ c = CodePoint.ofChar '\t' ∨ c = CodePoint.ofChar '\n'
    ∨ c = CodePoint.ofChar '\r'

/-! ### Numbers -/

def Digits (t : Text) : Prop :=
  t ≠ [] ∧ ∀ c ∈ t, c.isDigit = true

/-- The digits before the point. -/
inductive IntegerPart : Text → Prop where
  | zero : IntegerPart [CodePoint.ofChar '0']
  | positive (d : CodePoint) (ds : Text) (first : d.isDigit = true) (nonzero : d ≠ CodePoint.ofChar '0')
      (more : ∀ c ∈ ds, c.isDigit = true) : IntegerPart (d :: ds)

/-- The point and the digits behind it, or nothing. -/
inductive FractionPart : Text → Prop where
  | absent : FractionPart []
  | present (ds : Text) (digits : Digits ds) : FractionPart (CodePoint.ofChar '.' :: ds)

inductive ExponentPart : Text → Prop where
  | absent : ExponentPart []
  | present (mark : Char) (sign : List Char) (ds : Text) (isMark : mark = 'e' ∨ mark = 'E')
      (isSign : sign = [] ∨ sign = ['+'] ∨ sign = ['-']) (digits : Digits ds) :
      ExponentPart (CodePoint.ofChar mark :: Text.ofChars sign ++ ds)

inductive Number : Text → Prop where
  | mk (sign : List Char) (i f e : Text) (isSign : sign = [] ∨ sign = ['-']) (integer : IntegerPart i)
      (fraction : FractionPart f) (exponent : ExponentPart e) :
      Number (Text.ofChars sign ++ i ++ f ++ e)

/-! ### Strings -/

/-- What a one-letter escape stands for. -/
inductive ShortEscape : Char → Nat → Prop where
  | quote : ShortEscape '"' 0x22
  | backslash : ShortEscape '\\' 0x5C
  | slash : ShortEscape '/' 0x2F
  | backspace : ShortEscape 'b' 0x08
  | formFeed : ShortEscape 'f' 0x0C
  | lineFeed : ShortEscape 'n' 0x0A
  | carriageReturn : ShortEscape 'r' 0x0D
  | tab : ShortEscape 't' 0x09

/-- A numeric escape of one code unit. -/
inductive UnitEscape : Text → Nat → Prop where
  | mk (a b c d : CodePoint) (x y z w : Nat) (ha : a.hexValue? = some x) (hb : b.hexValue? = some y)
      (hc : c.hexValue? = some z) (hd : d.hexValue? = some w) :
      UnitEscape (Text.ofChars ['\\', 'u'] ++ [a, b, c, d]) (4096 * x + 256 * y + 16 * z + w)

/-- One code point of a string and the ways to write it. -/
inductive StringPoint : Text → CodePoint → Prop where
  | plain (c : CodePoint) (notControl : 0x20 ≤ c.val) (notQuote : c ≠ CodePoint.ofChar '"')
      (notBackslash : c ≠ CodePoint.ofChar '\\') : StringPoint [c] c
  | short (letter : Char) (n : Nat) (escape : ShortEscape letter n) :
      StringPoint (Text.ofChars ['\\', letter]) (.ofNat n)
  | unit (t : Text) (u : Nat) (escape : UnitEscape t u) (scalar : u < 0xD800 ∨ 0xDFFF < u) :
      StringPoint t (.ofNat u)
  | pair (s t : Text) (high low : Nat) (first : UnitEscape s high) (second : UnitEscape t low)
      (isHigh : 0xD800 ≤ high ∧ high ≤ 0xDBFF) (isLow : 0xDC00 ≤ low ∧ low ≤ 0xDFFF) :
      StringPoint (s ++ t) (.ofNat (0x10000 + 0x400 * (high - 0xD800) + (low - 0xDC00)))

/-- What stands between the quotes of a string. -/
inductive StringBody : Text → Text → Prop where
  | nil : StringBody [] []
  | cons (s t : Text) (c : CodePoint) (cs : Text) (first : StringPoint s c) (more : StringBody t cs) :
      StringBody (s ++ t) (c :: cs)

/-- A string with its quotes. -/
def Str (t s : Text) : Prop :=
  ∃ body, StringBody body s ∧ t = CodePoint.ofChar '"' :: body ++ [CodePoint.ofChar '"']

/-! ### Values and documents -/

mutual

/-- The value that a text denotes, without white space around it. -/
inductive Denotes : Text → Value → Prop where
  | null : Denotes (Text.ofChars ['n', 'u', 'l', 'l']) .null
  | true : Denotes (Text.ofChars ['t', 'r', 'u', 'e']) (.bool true)
  | false : Denotes (Text.ofChars ['f', 'a', 'l', 's', 'e']) (.bool false)
  | number (t : Text) (h : Number t) : Denotes t (.number t)
  | string (t s : Text) (h : Str t s) : Denotes t (.string s)
  | emptyArray (w : Text) (h : Space w) :
      Denotes (CodePoint.ofChar '[' :: w ++ [CodePoint.ofChar ']']) (.array [])
  | array (t : Text) (vs : List Value) (h : Items t vs) :
      Denotes (CodePoint.ofChar '[' :: t ++ [CodePoint.ofChar ']']) (.array vs)
  | emptyObject (w : Text) (h : Space w) :
      Denotes (CodePoint.ofChar '\x7b' :: w ++ [CodePoint.ofChar '\x7d']) (.object [])
  | object (t : Text) (ms : List (Text × Value)) (h : Members t ms) :
      Denotes (CodePoint.ofChar '\x7b' :: t ++ [CodePoint.ofChar '\x7d']) (.object ms)

inductive Items : Text → List Value → Prop where
  | one (w t w' : Text) (v : Value) (before : Space w) (item : Denotes t v) (behind : Space w') :
      Items (w ++ t ++ w') [v]
  | cons (w t w' rest : Text) (v : Value) (vs : List Value) (before : Space w) (item : Denotes t v)
      (behind : Space w') (more : Items rest vs) :
      Items (w ++ t ++ w' ++ CodePoint.ofChar ',' :: rest) (v :: vs)

inductive Members : Text → List (Text × Value) → Prop where
  | one (t : Text) (k : Text) (v : Value) (member : Member t k v) : Members t [(k, v)]
  | cons (t rest : Text) (k : Text) (v : Value) (ms : List (Text × Value)) (member : Member t k v)
      (more : Members rest ms) : Members (t ++ CodePoint.ofChar ',' :: rest) ((k, v) :: ms)

inductive Member : Text → Text → Value → Prop where
  | mk (w₁ s w₂ w₃ t w₄ : Text) (k : Text) (v : Value) (h₁ : Space w₁) (key : Str s k) (h₂ : Space w₂)
      (h₃ : Space w₃) (item : Denotes t v) (h₄ : Space w₄) :
      Member (w₁ ++ s ++ w₂ ++ CodePoint.ofChar ':' :: w₃ ++ t ++ w₄) k v

end

/-- A whole document: at most one byte order mark, and a value with white space around it. -/
def Document (t : Text) (v : Value) : Prop :=
  ∃ mark w body w', (mark = [] ∨ mark = [CodePoint.ofNat 0xFEFF]) ∧ Space w ∧ Denotes body v ∧ Space w'
    ∧ t = mark ++ w ++ body ++ w'

end CanonJson.Grammar
