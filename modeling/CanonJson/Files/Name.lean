import CanonJson.Text.Utf8
/-!
# File names as octets

The system knows names as octets. A name is encoded in UTF-8, except that a surrogate from
`U+DC80` to `U+DCFF` stands for the single octet that it ends in; no other surrogate has a place in a
name. Names and whole paths are limited in length.
-/

namespace CanonJson.FileName

/-- The longest name of a directory entry, in octets. -/
def maxLength : Nat := 255

def maxPathLength : Nat := 4095

/-- Whether a code point stands for a single octet. -/
def isEscapedOctet (c : CodePoint) : Bool :=
  0xDC80 ≤ c.val && c.val ≤ 0xDCFF

/-- The octets of a code point in a name. -/
def encodePoint (c : CodePoint) : Bytes :=
  if isEscapedOctet c then [UInt8.ofNat c.val] else Utf8.encodePoint c

private def isForbidden (c : CodePoint) : Bool :=
  c.isSurrogate && !isEscapedOctet c

/-- The octets of a name; the run of surrogates from the first that stands for no octet otherwise. -/
def encode (t : Text) : Except EncodeError Bytes :=
  match t.findIdx? isForbidden with
  | none => .ok (t.flatMap encodePoint)
  | some start =>
    let run := (t.drop start).takeWhile CodePoint.isSurrogate
    .error ⟨.utf8, start, run.length, run.headD (.ofNat 0xD800)⟩

def length (t : Text) : Nat :=
  (t.flatMap encodePoint).length

end CanonJson.FileName
