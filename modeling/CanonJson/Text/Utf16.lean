import CanonJson.Text.Utf8
/-!
# UTF-16

The code units of a text, and its big-endian octets. Ordering keys by the octets is ordering them by
the units, since each unit is two octets with the high one first.
-/

namespace CanonJson.Utf16

def unitsOfPoint (c : CodePoint) : List Nat :=
  if c.val < 0x10000 then [c.val]
  else [0xD800 + (c.val - 0x10000) / 0x400, 0xDC00 + (c.val - 0x10000) % 0x400]

def units (t : Text) : List Nat :=
  t.flatMap unitsOfPoint

/-- The octets of one code unit, the high one first. -/
def octetsOfUnit (u : Nat) : Bytes :=
  [UInt8.ofNat (u / 0x100), UInt8.ofNat (u % 0x100)]

/-- The big-endian octets of a text that holds no surrogate; its first surrogate otherwise. -/
def encode (t : Text) : Except EncodeError Bytes :=
  match t.findIdx? CodePoint.isSurrogate with
  | none => .ok ((units t).flatMap octetsOfUnit)
  | some start => .error ⟨.utf16be, start, 1, (t.drop start).headD (.ofNat 0xD800)⟩

end CanonJson.Utf16
