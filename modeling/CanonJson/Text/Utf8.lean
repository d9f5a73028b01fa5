import CanonJson.Text.CodePoint
/-!
# UTF-8

`encode` writes a surrogate-free text, and says where the first run of surrogates lies otherwise.
`scan` reads the longest valid prefix of a byte sequence and returns what is left, so that the place
of the first ill-formed sequence is the length of what was read.
-/

namespace CanonJson

/-- The character encodings texts are written in. -/
inductive Encoding where
  | utf8
  | utf16be
deriving DecidableEq

/-- A run of surrogates that cannot be encoded: where it starts, how long it is, what it starts with. -/
structure EncodeError where
  encoding : Encoding
  start : Nat
  length : Nat
  first : CodePoint

namespace Utf8

def octet (n : Nat) : UInt8 :=
  UInt8.ofNat n

def encodePoint (c : CodePoint) : Bytes :=
  let v := c.val
  if v < 0x80 then [octet v]
  else if v < 0x800 then [octet (0xC0 + v / 0x40), octet (0x80 + v % 0x40)]
  else if v < 0x10000 then
    [octet (0xE0 + v / 0x1000), octet (0x80 + v / 0x40 % 0x40), octet (0x80 + v % 0x40)]
  else
    [octet (0xF0 + v / 0x40000), octet (0x80 + v / 0x1000 % 0x40), octet (0x80 + v / 0x40 % 0x40),
      octet (0x80 + v % 0x40)]

/-- The octets of a text that holds no surrogate; the first run of surrogates otherwise. -/
def encode (t : Text) : Except EncodeError Bytes :=
  match t.findIdx? CodePoint.isSurrogate with
  | none => .ok (t.flatMap encodePoint)
  | some start =>
    let run := (t.drop start).takeWhile CodePoint.isSurrogate
    .error ⟨.utf8, start, run.length, run.headD (.ofNat 0xD800)⟩

/-- Whether an octet continues a sequence. -/
def isContinuation (b : UInt8) : Bool :=
  0x80 ≤ b && b < 0xC0

/-- The code point of a two-octet sequence. -/
def twoOctets? (b₀ b₁ : UInt8) : Option CodePoint :=
  if 0xC2 ≤ b₀ && b₀ < 0xE0 && isContinuation b₁ then
    some (.ofNat ((b₀.toNat - 0xC0) * 0x40 + (b₁.toNat - 0x80)))
  else none

/-- The code point of a three-octet sequence; neither an overlong form nor a surrogate is one. -/
def threeOctets? (b₀ b₁ b₂ : UInt8) : Option CodePoint :=
  if 0xE0 ≤ b₀ && b₀ < 0xF0 && isContinuation b₁ && isContinuation b₂ then
    let v := (b₀.toNat - 0xE0) * 0x1000 + (b₁.toNat - 0x80) * 0x40 + (b₂.toNat - 0x80)
    if 0x800 ≤ v && !(0xD800 ≤ v && v ≤ 0xDFFF) then some (.ofNat v) else none
  else none

/-- The code point of a four-octet sequence, which lies in `U+10000..U+10FFFF`. -/
def fourOctets? (b₀ b₁ b₂ b₃ : UInt8) : Option CodePoint :=
  if 0xF0 ≤ b₀ && b₀ < 0xF8 && isContinuation b₁ && isContinuation b₂ && isContinuation b₃ then
    let v := (b₀.toNat - 0xF0) * 0x40000 + (b₁.toNat - 0x80) * 0x1000 + (b₂.toNat - 0x80) * 0x40
      + (b₃.toNat - 0x80)
    if 0x10000 ≤ v && v < 0x110000 then some (.ofNat v) else none
  else none

/-- Decodes behind `acc`, which is kept in reverse; see `scan`. -/
def scanFrom : Bytes → Text → Text × Bytes
  | [], acc => (acc.reverse, [])
  | b₀ :: r₀, acc =>
    if b₀ < 0x80 then scanFrom r₀ (.ofNat b₀.toNat :: acc)
    else match r₀ with
      | [] => (acc.reverse, [b₀])
      | b₁ :: r₁ =>
        match twoOctets? b₀ b₁ with
        | some c => scanFrom r₁ (c :: acc)
        | none =>
          match r₁ with
          | [] => (acc.reverse, [b₀, b₁])
          | b₂ :: r₂ =>
            match threeOctets? b₀ b₁ b₂ with
            | some c => scanFrom r₂ (c :: acc)
            | none =>
              match r₂ with
              | [] => (acc.reverse, [b₀, b₁, b₂])
              | b₃ :: r₃ =>
                match fourOctets? b₀ b₁ b₂ b₃ with
                | some c => scanFrom r₃ (c :: acc)
                | none => (acc.reverse, b₀ :: b₁ :: b₂ :: b₃ :: r₃)

/-- The text of the longest valid prefix, and the octets from the first ill-formed sequence on. -/
def scan (bs : Bytes) : Text × Bytes :=
  scanFrom bs []

/-- The text of a valid byte sequence. -/
def decode? (bs : Bytes) : Option Text :=
  match scan bs with
  | (t, []) => some t
  | _ => none

end Utf8

end CanonJson
