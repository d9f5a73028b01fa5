import CanonJson.Text.Printable
import CanonJson.Text.Utf8
/-!
# Quoted texts

How messages show a text: between apostrophes, or between double quotes when it holds an apostrophe
and no double quote. The quote in use and the backslash get a backslash, tab, line feed and carriage
return their short escapes, and other unprintable code points their number.
-/

namespace CanonJson.Text

private def escape (quote : Char) (c : CodePoint) : Text :=
  if c.is quote || c.is '\\' then [CodePoint.ofChar '\\', c]
  else if c.is '\t' then ofChars ['\\', 't']
  else if c.is '\n' then ofChars ['\\', 'n']
  else if c.is '\r' then ofChars ['\\', 'r']
  else if isPrintable c then [c]
  else if c.val < 0x100 then ofChars ['\\', 'x'] ++ hex false 2 c.val
  else if c.val < 0x10000 then ofChars ['\\', 'u'] ++ hex false 4 c.val
  else ofChars ['\\', 'U'] ++ hex false 8 c.val

/-- The text as messages show it. -/
def quoted (t : Text) : Text :=
  let quote := if t.any (·.is '\'') && !t.any (·.is '"') then '"' else '\''
  CodePoint.ofChar quote :: t.flatMap (escape quote) ++ [CodePoint.ofChar quote]

/-- The text with each surrogate spelled out, so that it can be encoded. -/
def spellSurrogates (t : Text) : Text :=
  t.flatMap fun c => if c.isSurrogate then ofChars ['\\', 'u'] ++ hex false 4 c.val else [c]

end CanonJson.Text

namespace CanonJson

def Encoding.name : Encoding → Text
  | .utf8 => "utf-8"
  | .utf16be => "utf-16-be"

def EncodeError.message (e : EncodeError) : Text :=
  let place : Text :=
    if e.length ≤ 1 then
      "character " ++ Text.quoted [e.first] ++ " in position " ++ Text.ofNat e.start
    else
      "characters in position " ++ Text.ofNat e.start ++ "-" ++ Text.ofNat (e.start + e.length - 1)
  Text.quoted e.encoding.name ++ " codec can't encode " ++ place ++ ": surrogates not allowed"

end CanonJson
