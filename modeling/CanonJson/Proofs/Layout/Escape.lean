import CanonJson.Layout.Escape
import CanonJson.Proofs.Text.Surrogate
import CanonJson.Syntax.Grammar
/-!
# Printed strings denote what was printed

Each escape that is printed is one of those the grammar knows, and denotes the code point it was printed
for. A code point outside the basic plane is printed in ASCII as the two escapes of its surrogates, and
the grammar joins them again.
-/

namespace CanonJson

namespace Text

theorem hexValue?_hexDigit {d : Nat} (upper : Bool) (hd : d < 16) :
    (hexDigit upper d).hexValue? = some d := by
  have h : ∀ upper, ∀ d < 16, (hexDigit upper d).hexValue? = some d := by decide
  exact h upper d hd

theorem isSurrogate_hexDigit {d : Nat} (upper : Bool) (hd : d < 16) :
    (hexDigit upper d).isSurrogate = false := by
  have h : ∀ upper, ∀ d < 16, (hexDigit upper d).isSurrogate = false := by decide
  exact h upper d hd

theorem hex_four (upper : Bool) (n : Nat) :
    hex upper 4 n = [hexDigit upper (n / 4096 % 16), hexDigit upper (n / 256 % 16), hexDigit upper (n / 16 % 16),
      hexDigit upper (n / 1 % 16)] :=
  rfl

theorem surrogateFree_hex (upper : Bool) (width n : Nat) : SurrogateFree (hex upper width n) := by
  intro c hc
  obtain ⟨i, -, rfl⟩ := List.mem_map.mp hc
  exact isSurrogate_hexDigit upper (Nat.mod_lt _ (by decide))

end Text

namespace Layout

open Grammar

/-! ### One code point -/

theorem unitEscape_denotes {u : Nat} (hu : u < 0x10000) : UnitEscape (unitEscape u) u := by
  have hdigits := fun n => Text.hexValue?_hexDigit false (Nat.mod_lt n (by decide : 16 > 0))
  have hescape := UnitEscape.mk _ _ _ _ _ _ _ _ (hdigits (u / 4096)) (hdigits (u / 256)) (hdigits (u / 16))
    (hdigits (u / 1))
  have hvalue : 4096 * (u / 4096 % 16) + 256 * (u / 256 % 16) + 16 * (u / 16 % 16) + u / 1 % 16 = u := by
    omega
  rw [hvalue] at hescape
  rw [unitEscape, Text.hex_four]
  exact hescape

theorem stringPoint_unitEscape {c : CodePoint} (hc : c.isSurrogate = false)
    (hlt : c.val < 0x10000) : StringPoint (unitEscape c.val) c := by
  have h := StringPoint.unit _ _ (unitEscape_denotes hlt) (CodePoint.isSurrogate_eq_false_iff.mp hc)
  rwa [CodePoint.ofNat_val] at h

theorem stringPoint_pair {c : CodePoint} (hge : 0x10000 ≤ c.val) :
    StringPoint (unitEscape (0xD800 + (c.val - 0x10000) / 0x400) ++ unitEscape (0xDC00 + (c.val - 0x10000) % 0x400))
      c := by
  have hlt := c.val_lt
  have h := StringPoint.pair _ _ _ _ (@unitEscape_denotes (0xD800 + (c.val - 0x10000) / 0x400) (by omega))
    (@unitEscape_denotes (0xDC00 + (c.val - 0x10000) % 0x400) (by omega)) (by omega) (by omega)
  have hvalue : 0x10000 + 0x400 * (0xD800 + (c.val - 0x10000) / 0x400 - 0xD800)
      + (0xDC00 + (c.val - 0x10000) % 0x400 - 0xDC00) = c.val := by
    omega
  rwa [hvalue, CodePoint.ofNat_val] at h

theorem stringPoint_units {c : CodePoint} (hc : c.isSurrogate = false) :
    StringPoint ((Utf16.unitsOfPoint c).flatMap unitEscape) c := by
  unfold Utf16.unitsOfPoint
  split
  · rename_i hlt
    simpa using stringPoint_unitEscape hc hlt
  · rename_i hge
    simpa using stringPoint_pair (Nat.le_of_not_lt hge)

theorem stringPoint_short {c : CodePoint} {letter : Char} {n : Nat} (hc : c.val = n)
    (h : ShortEscape letter n) : StringPoint (Text.ofChars ['\\', letter]) c := by
  subst hc
  have hpoint := StringPoint.short letter c.val h
  rwa [CodePoint.ofNat_val] at hpoint

/-- The escape of a code point denotes it. -/
theorem stringPoint_escapePoint {ascii : Bool} {c : CodePoint} (hc : c.isSurrogate = false) :
    StringPoint (escapePoint ascii c) c := by
  unfold escapePoint
  split
  · rename_i h
    rw [Bool.or_eq_true, CodePoint.is_iff, CodePoint.is_iff] at h
    rcases h with rfl | rfl
    · exact stringPoint_short rfl .quote
    · exact stringPoint_short rfl .backslash
  rename_i hplain
  rw [Bool.or_eq_true, CodePoint.is_iff, CodePoint.is_iff, not_or] at hplain
  split
  · exact stringPoint_short ‹_› .backspace
  split
  · exact stringPoint_short ‹_› .tab
  split
  · exact stringPoint_short ‹_› .lineFeed
  split
  · exact stringPoint_short ‹_› .formFeed
  split
  · exact stringPoint_short ‹_› .carriageReturn
  split
  · exact stringPoint_unitEscape hc (by omega)
  split
  · exact stringPoint_units hc
  · exact .plain c (by omega) hplain.1 hplain.2

/-! ### Strings -/

theorem stringBody_escapes {ascii : Bool} {t : Text} (ht : t.SurrogateFree) :
    StringBody (t.flatMap (escapePoint ascii)) t := by
  induction t with
  | nil => exact .nil
  | cons c t ih =>
    obtain ⟨hc, ht⟩ := Text.surrogateFree_cons.mp ht
    exact .cons _ _ c t (stringPoint_escapePoint hc) (ih ht)

theorem str_encodeString {ascii : Bool} {t : Text} (ht : t.SurrogateFree) :
    Str (encodeString ascii t) t :=
  ⟨_, stringBody_escapes ht, rfl⟩

/-! ### No surrogates -/

theorem surrogateFree_unitEscape (u : Nat) : Text.SurrogateFree (unitEscape u) :=
  Text.surrogateFree_append.mpr ⟨Text.surrogateFree_ofChars _, Text.surrogateFree_hex _ _ _⟩

theorem surrogateFree_escapePoint {ascii : Bool} {c : CodePoint} (hc : c.isSurrogate = false) :
    Text.SurrogateFree (escapePoint ascii c) := by
  have hsingle : Text.SurrogateFree [c] := by simpa [Text.SurrogateFree] using hc
  unfold escapePoint
  split
  · exact Text.surrogateFree_cons.mpr ⟨CodePoint.isSurrogate_ofChar _, hsingle⟩
  iterate 5
    split
    · exact Text.surrogateFree_ofChars _
  split
  · exact surrogateFree_unitEscape _
  split
  · exact Text.surrogateFree_flatMap fun u _ => surrogateFree_unitEscape u
  · exact hsingle

theorem surrogateFree_encodeString {ascii : Bool} {t : Text} (ht : t.SurrogateFree) :
    Text.SurrogateFree (encodeString ascii t) := by
  have hquote := Text.surrogateFree_ofChars ['"']
  have hescapes := Text.surrogateFree_flatMap fun c hc => @surrogateFree_escapePoint ascii c (ht c hc)
  exact Text.surrogateFree_append.mpr
    ⟨Text.surrogateFree_cons.mpr ⟨CodePoint.isSurrogate_ofChar _, hescapes⟩, hquote⟩

end Layout

end CanonJson
