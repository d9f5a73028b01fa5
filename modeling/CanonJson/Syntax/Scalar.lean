import CanonJson.Syntax.Fault
import CanonJson.Syntax.Pattern
import CanonJson.Value.Basic
/-!
# Reading the leaves of a document

Strings, numbers and literals. Each reader takes the input from its place on and returns what is left
behind what it read, which is always less than it was given.
-/

namespace CanonJson.Syntax

/-- The white space of the grammar: space, tab, line feed, carriage return. -/
def isSpace (c : CodePoint) : Bool :=
  c.is ' ' || c.is '\t' || c.is '\n' || c.is '\r'

/-- The input behind any white space. -/
def skipSpace (input : Text) : Text :=
  input.dropWhile isSpace

theorem length_skipSpace_le (input : Text) : (skipSpace input).length ≤ input.length :=
  (List.dropWhile_suffix _).length_le

/-! ### Strings -/

/-- The character that a one-letter escape stands for. -/
def shortEscape? (c : CodePoint) : Option CodePoint :=
  if c.is '"' || c.is '\\' || c.is '/' then some c
  else if c.is 'b' then some (.ofNat 0x08)
  else if c.is 'f' then some (.ofNat 0x0C)
  else if c.is 'n' then some (.ofNat 0x0A)
  else if c.is 'r' then some (.ofNat 0x0D)
  else if c.is 't' then some (.ofNat 0x09)
  else none

/-- The number of four hexadecimal digits in front. -/
def readHex? (input : Text) : Option (Nat × Text) :=
  match input with
  | a :: b :: c :: d :: rest =>
    match a.hexValue?, b.hexValue?, c.hexValue?, d.hexValue? with
    | some a, some b, some c, some d => some (((a * 16 + b) * 16 + c) * 16 + d, rest)
    | _, _, _, _ => none
  | _ => none

def isHigh (u : Nat) : Bool := 0xD800 ≤ u && u ≤ 0xDBFF

def isLow (u : Nat) : Bool := 0xDC00 ≤ u && u ≤ 0xDFFF

/-- The low surrogate that has to follow a high one, as a second escape. -/
def readLow (escape : Text) (high : Nat) (input : Text) : Except Failure (CodePoint × Text) :=
  match input with
  | c₁ :: c₂ :: digits =>
    if c₁.is '\\' && c₂.is 'u' then
      match readHex? digits with
      | none => .error ⟨.badHexDigits, input⟩
      | some (low, rest) =>
        if isLow low then .ok (.ofNat (0x10000 + (high - 0xD800) * 0x400 + (low - 0xDC00)), rest)
        else .error ⟨.loneHighSurrogate high, escape⟩
    else .error ⟨.loneHighSurrogate high, escape⟩
  | _ => .error ⟨.loneHighSurrogate high, escape⟩

/-- The code point of a numeric escape, whose digits are in front; a surrogate needs its partner. The
whole escape starts at `escape`. -/
def readNumericEscape (escape : Text) (input : Text) : Except Failure (CodePoint × Text) :=
  match readHex? input with
  | none => .error ⟨.badHexDigits, escape⟩
  | some (u, rest) =>
    if isLow u then .error ⟨.loneLowSurrogate u, escape⟩
    else if isHigh u then readLow escape u rest
    else .ok (.ofNat u, rest)

/-- One step inside a string: its end, or one more code point. -/
inductive StringStep where
  | close (rest : Text)
  | point (c : CodePoint) (rest : Text)

def StringStep.rest : StringStep → Text
  | .close rest => rest
  | .point _ rest => rest

/-- The next step inside the string that opens at `start`. -/
def stringStep (start input : Text) : Except Failure StringStep :=
  match input with
  | [] => .error ⟨.unterminatedString, start⟩
  | c :: rest =>
    if c.is '"' then .ok (.close rest)
    else if c.is '\\' then
      match rest with
      | [] => .error ⟨.unterminatedString, start⟩
      | e :: rest' =>
        match shortEscape? e with
        | some c => .ok (.point c rest')
        | none =>
          if e.is 'u' then (readNumericEscape input rest').map fun p => .point p.1 p.2
          else .error ⟨.unknownEscape e, input⟩
    else if c.val < 0x20 then .error ⟨.controlCharacter c, input⟩
    else .ok (.point c rest)

theorem length_readHex? {input rest : Text} {n : Nat} (h : readHex? input = some (n, rest)) :
    rest.length < input.length := by
  unfold readHex? at h
  split at h
  · split at h <;> simp_all
    omega
  · simp at h

theorem length_readLow {escape input rest : Text} {high : Nat} {c : CodePoint}
    (h : readLow escape high input = .ok (c, rest)) : rest.length < input.length := by
  unfold readLow at h
  split at h
  · split at h
    · split at h
      · simp at h
      · rename_i hex
        have := length_readHex? hex
        split at h <;> simp_all
        omega
    · simp at h
  · simp at h

theorem length_readNumericEscape {escape input rest : Text} {c : CodePoint}
    (h : readNumericEscape escape input = .ok (c, rest)) : rest.length < input.length := by
  unfold readNumericEscape at h
  split at h
  · simp at h
  · rename_i hex
    have := length_readHex? hex
    split at h
    · simp at h
    · split at h
      · have := length_readLow h
        omega
      · simp_all

theorem length_stringStep {start input : Text} {s : StringStep} (h : stringStep start input = .ok s) :
    s.rest.length < input.length := by
  unfold stringStep at h
  split at h
  · simp at h
  · split at h
    · simp at h; subst h; simp [StringStep.rest]
    · split at h
      · split at h
        · simp at h
        · split at h
          · simp at h
            subst h
            exact Nat.lt_succ_of_lt (Nat.lt_succ_self _)
          · split at h
            · rename_i c rest _ _ e rest' _ _ _
              cases hr : readNumericEscape (c :: e :: rest') rest' with
              | error e => rw [hr] at h; simp [Except.map] at h
              | ok p =>
                rw [hr] at h
                have := length_readNumericEscape hr
                simp [Except.map] at h
                subst h
                simp [StringStep.rest]
                omega
            · simp at h
      · split at h
        · simp at h
        · simp at h; subst h; simp [StringStep.rest]

/-- The rest of the string that opens at `start`, behind `acc`, which is kept in reverse. -/
def readStringFrom (start input : Text) (acc : Text) : Except Failure (Text × Text) :=
  match _h : stringStep start input with
  | .error e => .error e
  | .ok (.close rest) => .ok (acc.reverse, rest)
  | .ok (.point c rest) => readStringFrom start rest (c :: acc)
termination_by input.length
decreasing_by exact length_stringStep _h

/-- The string whose opening quote is at the front of `start` and behind which `input` follows. -/
def readString (start input : Text) : Except Failure (Text × Text) :=
  readStringFrom start input []

theorem length_readStringFrom (start : Text) {input acc t rest : Text}
    (h : readStringFrom start input acc = .ok (t, rest)) : rest.length < input.length := by
  fun_induction readStringFrom start input acc with
  | case1 => simp at h
  | case2 input acc rest' hs =>
    have := length_stringStep hs
    simp_all [StringStep.rest]
  | case3 input acc c rest' hs ih =>
    have := length_stringStep hs
    have := ih h
    simp_all [StringStep.rest]
    omega

/-! ### Numbers, literals and words -/

/-- Whether a number may start with the code point; not every such number is valid. -/
def startsNumber (c : CodePoint) : Bool :=
  c.isDigit || c.is '-' || c.is '+' || c.is '.'

/-- Whether the code point belongs to the token of a number. -/
def inNumber (c : CodePoint) : Bool :=
  startsNumber c || c.is 'e' || c.is 'E'

def inWord (c : CodePoint) : Bool :=
  c.isDigit || (0x41 ≤ c.val && c.val ≤ 0x5A) || (0x61 ≤ c.val && c.val ≤ 0x7A) || c.is '_'

/-- The longest token of number characters in front, which has to be JSON number text. -/
def readNumber (input : Text) : Except Failure (Value × Text) :=
  let token := input.takeWhile inNumber
  if Pattern.number.fullMatches token then .ok (.number token, input.dropWhile inNumber)
  else .error ⟨.invalidNumber token, input⟩

def literals : List (List Char × Value) :=
  [(['t', 'r', 'u', 'e'], .bool true), (['f', 'a', 'l', 's', 'e'], .bool false),
    (['n', 'u', 'l', 'l'], .null)]

/-- The first literal that stands in front, or the reason why no value does. -/
def readLiteral (input : Text) : Except Failure (Value × Text) :=
  match literals.find? fun l => input.startsWith l.1 with
  | some (word, v) => .ok (v, input.drop word.length)
  | none =>
    match input with
    | [] => .error ⟨.endOfInput .value, input⟩
    | c :: _ =>
      let word := input.takeWhile inWord
      if word.isEmpty then .error ⟨.unexpectedCharacter c, input⟩
      else .error ⟨.unknownWord word, input⟩

/-- The value without parts that stands in front. -/
def readScalar (input : Text) : Except Failure (Value × Text) :=
  match input with
  | [] => .error ⟨.endOfInput .value, input⟩
  | c :: rest =>
    if c.is '"' then (readString input rest).map fun p => (.string p.1, p.2)
    else if startsNumber c then readNumber input
    else readLiteral input

theorem length_readNumber {c : CodePoint} {input rest : Text} {v : Value} (hc : startsNumber c = true)
    (h : readNumber (c :: input) = .ok (v, rest)) : rest.length < (c :: input).length := by
  unfold readNumber at h
  have hin : inNumber c = true := by simp [inNumber, hc]
  simp only [List.takeWhile_cons, hin, ↓reduceIte, List.dropWhile_cons] at h
  split at h
  · have hle := (List.dropWhile_suffix inNumber (l := input)).length_le
    simp only [Except.ok.injEq, Prod.mk.injEq] at h
    rw [← h.2, List.length_cons]
    exact Nat.lt_succ_of_le hle
  · simp at h

theorem length_readLiteral {input rest : Text} {v : Value} (h : readLiteral input = .ok (v, rest)) :
    rest.length < input.length := by
  unfold readLiteral at h
  split at h
  · rename_i word v' hf
    have hmem := List.mem_of_find?_eq_some hf
    have hpre := List.find?_some hf
    simp only [Text.startsWith, List.isPrefixOf_iff_prefix] at hpre
    have hle := hpre.length_le
    have hpos : 0 < word.length := by
      simp [literals] at hmem
      rcases hmem with ⟨rfl, _⟩ | ⟨rfl, _⟩ | ⟨rfl, _⟩ <;> decide
    simp [Text.ofChars] at hle
    simp at h
    obtain ⟨_, rfl⟩ := h
    simp
    omega
  · split at h
    · simp at h
    · simp only at h
      split at h <;> simp at h

theorem length_readScalar {input rest : Text} {v : Value} (h : readScalar input = .ok (v, rest)) :
    rest.length < input.length := by
  unfold readScalar at h
  split at h
  · simp at h
  · rename_i c input'
    split at h
    · cases hs : readString (c :: input') input' with
      | error e => rw [hs] at h; simp [Except.map] at h
      | ok p =>
        rw [hs] at h
        have : p.2.length < input'.length := length_readStringFrom (c :: input') hs
        simp [Except.map] at h
        obtain ⟨_, rfl⟩ := h
        simp
        omega
    · split at h
      · exact length_readNumber ‹_› h
      · exact length_readLiteral h

end CanonJson.Syntax
