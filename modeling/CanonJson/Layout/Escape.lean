import CanonJson.Text.Utf16
/-!
# Strings in print

Quotes, backslashes and control characters are escaped, with the short escapes where there are any.
In ASCII output everything beyond the tilde is escaped too, by its UTF-16 code units.
-/

namespace CanonJson.Layout

/-- A numeric escape of one code unit. -/
def unitEscape (u : Nat) : Text :=
  Text.ofChars ['\\', 'u'] ++ Text.hex false 4 u

def escapePoint (ascii : Bool) (c : CodePoint) : Text :=
  if c.is '"' || c.is '\\' then [CodePoint.ofChar '\\', c]
  else if c.val = 0x08 then Text.ofChars ['\\', 'b']
  else if c.val = 0x09 then Text.ofChars ['\\', 't']
  else if c.val = 0x0A then Text.ofChars ['\\', 'n']
  else if c.val = 0x0C then Text.ofChars ['\\', 'f']
  else if c.val = 0x0D then Text.ofChars ['\\', 'r']
  else if c.val < 0x20 then unitEscape c.val
  else if ascii && 0x7E < c.val then (Utf16.unitsOfPoint c).flatMap unitEscape
  else [c]

/-- A string between its quotes. -/
def encodeString (ascii : Bool) (t : Text) : Text :=
  CodePoint.ofChar '"' :: t.flatMap (escapePoint ascii) ++ [CodePoint.ofChar '"']

end CanonJson.Layout
