import CanonJson.Syntax.Scalar
/-!
# Reading a document

The containers that are open are kept on an explicit stack, so nesting is bounded by the given limit
and by nothing else. What is left of the limit is the room: opening a container takes one from it and
closing one gives it back. Each round begins one value; a finished value is attached to the innermost open
container, and every container that ends there is closed.
-/

namespace CanonJson.Syntax

/-- An open container: what it holds so far, newest first, and the key that waits for its value. -/
inductive Frame where
  | array (items : List Value)
  | object (members : List (Text × Value)) (key : Text)

namespace Frame

def bracket : Frame → Bracket
  | .array _ => .array
  | .object .. => .object

/-- The container closed behind one last value. -/
def close (f : Frame) (v : Value) : Value :=
  match f with
  | .array items => .array (v :: items).reverse
  | .object members key => .object ((key, v) :: members).reverse

end Frame

def startsWith (input : Text) (ch : Char) : Bool :=
  match input with
  | c :: _ => c.is ch
  | [] => false

/-- The key of a member and the colon behind it. -/
def readKey (input : Text) : Except Failure (Text × Text) :=
  match skipSpace input with
  | [] => .error ⟨.endOfInput .key, []⟩
  | c :: rest =>
    if c.is '"' then
      match readString (c :: rest) rest with
      | .error e => .error e
      | .ok (key, rest') =>
        match skipSpace rest' with
        | [] => .error ⟨.endOfInput .colon, []⟩
        | d :: rest'' =>
          if d.is ':' then .ok (key, rest'') else .error ⟨.missingColon d, d :: rest''⟩
    else .error ⟨.notAKey c, c :: rest⟩

/-- The beginning of a value: a container that stays open, or a finished value. -/
inductive Begun where
  | opened (f : Frame) (rest : Text)
  | finished (v : Value) (rest : Text)

def Begun.rest : Begun → Text
  | .opened _ rest => rest
  | .finished _ rest => rest

/-- Opens a container whose bracket has been read. -/
def openContainer (b : Bracket) (input : Text) : Except Failure Begun :=
  match skipSpace input with
  | c :: rest =>
    if c.is b.closer then
      .ok (.finished (match b with | .array => .array [] | .object => .object []) rest)
    else
      match b with
      | .array => .ok (.opened (.array []) (c :: rest))
      | .object =>
        match readKey (c :: rest) with
        | .error e => .error e
        | .ok (key, rest') => .ok (.opened (.object [] key) rest')
  | [] =>
    match b with
    | .array => .ok (.opened (.array []) [])
    | .object => .error ⟨.endOfInput .key, []⟩

/-- Begins the value in front; a container needs room for one more under the `limit`. -/
def beginValue (limit room : Nat) (input : Text) : Except Failure Begun :=
  match skipSpace input with
  | [] => .error ⟨.endOfInput .value, []⟩
  | c :: rest =>
    if c.is '[' || c.is '\x7b' then
      if room = 0 then .error ⟨.tooDeep limit, c :: rest⟩
      else openContainer (if c.is '[' then .array else .object) rest
    else (readScalar (c :: rest)).map fun p => .finished p.1 p.2

/-- What follows a finished value: another value inside the open containers, or the end of the
outermost value. -/
inductive Attached where
  | next (room : Nat) (stack : List Frame) (rest : Text)
  | done (v : Value) (rest : Text)

def Attached.rest : Attached → Text
  | .next _ _ rest => rest
  | .done _ rest => rest

/-- The container ready for the value behind a comma. -/
def nextEntry (f : Frame) (v : Value) (input : Text) : Except Failure (Frame × Text) :=
  match f with
  | .array items => .ok (.array (v :: items), input)
  | .object members key =>
    match readKey input with
    | .error e => .error e
    | .ok (key', rest) => .ok (.object ((key, v) :: members) key', rest)

/-- Attaches a finished value to the innermost container, and closes every container that ends. -/
def attach : Nat → List Frame → Value → Text → Except Failure Attached
  | _, [], v, input => .ok (.done v input)
  | room, f :: stack, v, input =>
    match skipSpace input with
    | [] => .error ⟨.endOfInput (.separator f.bracket), []⟩
    | c :: rest =>
      if c.is ',' then
        if startsWith (skipSpace rest) f.bracket.closer then
          .error ⟨.trailingComma f.bracket, c :: rest⟩
        else
          match nextEntry f v (skipSpace rest) with
          | .error e => .error e
          | .ok (f', rest') => .ok (.next room (f' :: stack) rest')
      else if c.is f.bracket.closer then attach (room + 1) stack (f.close v) rest
      else .error ⟨.missingSeparator f.bracket c, c :: rest⟩

/-! ### What is read is never given back -/

theorem length_of_skipSpace {input rest : Text} {c : CodePoint} (h : skipSpace input = c :: rest) :
    rest.length < input.length := by
  have := length_skipSpace_le input
  rw [h] at this
  simp at this
  omega

theorem length_readKey {input key rest : Text} (h : readKey input = .ok (key, rest)) :
    rest.length < input.length := by
  unfold readKey at h
  split at h
  · simp at h
  · rename_i c rest₀ h₀
    have h₁ := length_of_skipSpace h₀
    split at h
    · split at h
      · simp at h
      · rename_i key' rest' hs
        have h₂ := length_readStringFrom _ hs
        split at h
        · simp at h
        · rename_i d rest'' h₃
          have h₄ := length_of_skipSpace h₃
          split at h <;> simp_all
          omega
    · simp at h

theorem length_openContainer {b : Bracket} {input : Text} {r : Begun}
    (h : openContainer b input = .ok r) : r.rest.length ≤ input.length := by
  unfold openContainer at h
  split at h
  · rename_i c rest h₀
    have h₁ := length_of_skipSpace h₀
    split at h
    · simp at h; subst h; simp [Begun.rest]; omega
    · split at h
      · simp at h; subst h; simp [Begun.rest]; omega
      · split at h
        · simp at h
        · rename_i key rest' hk
          have h₂ := length_readKey hk
          simp at h; subst h
          simp [Begun.rest] at h₂ ⊢
          omega
  · split at h
    · simp at h; subst h; simp [Begun.rest]
    · simp at h

theorem length_beginValue {limit room : Nat} {input : Text} {r : Begun}
    (h : beginValue limit room input = .ok r) : r.rest.length < input.length := by
  unfold beginValue at h
  split at h
  · simp at h
  · rename_i c rest h₀
    have h₁ := length_skipSpace_le input
    rw [h₀] at h₁
    simp at h₁
    split at h
    · split at h
      · simp at h
      · have := length_openContainer h
        omega
    · cases hs : readScalar (c :: rest) with
      | error e => rw [hs] at h; simp [Except.map] at h
      | ok p =>
        rw [hs] at h
        have h₂ : p.2.length < (c :: rest).length := length_readScalar hs
        simp [Except.map] at h
        subst h
        simp [Begun.rest] at h₂ ⊢
        omega

theorem length_attach {room : Nat} {stack : List Frame} {v : Value} {input : Text} {r : Attached}
    (h : attach room stack v input = .ok r) : r.rest.length ≤ input.length := by
  induction stack generalizing room v input with
  | nil => simp [attach] at h; subst h; simp [Attached.rest]
  | cons f stack ih =>
    unfold attach at h
    split at h
    · simp at h
    · rename_i c rest h₀
      have h₁ := length_of_skipSpace h₀
      split at h
      · split at h
        · simp at h
        · split at h
          · simp at h
          · rename_i f' rest' hn
            simp at h
            subst h
            have h₂ := length_skipSpace_le rest
            simp only [Attached.rest]
            unfold nextEntry at hn
            split at hn
            · simp at hn
              rw [← hn.2]
              omega
            · split at hn
              · simp at hn
              · rename_i hk
                have h₃ := length_readKey hk
                simp at hn
                rw [← hn.2]
                omega
      · split at h
        · have := ih h
          omega
        · simp at h

/-! ### The document -/

/-- The value in front, inside the open containers; the outermost value is the result. -/
def readValue (limit room : Nat) (stack : List Frame) (input : Text) :
    Except Failure (Value × Text) :=
  match _h : beginValue limit room input with
  | .error e => .error e
  | .ok (.opened f rest) => readValue limit (room - 1) (f :: stack) rest
  | .ok (.finished v rest) =>
    match _h' : attach room stack v rest with
    | .error e => .error e
    | .ok (.next room' stack' rest') => readValue limit room' stack' rest'
    | .ok (.done v' rest') => .ok (v', rest')
termination_by input.length
decreasing_by
  · exact length_beginValue _h
  · exact Nat.lt_of_le_of_lt (length_attach _h') (length_beginValue _h)

/-- The input behind a byte order mark, of which one is skipped. -/
def skipMark (input : Text) : Text :=
  match input with
  | c :: rest => if c.val = 0xFEFF then rest else input
  | [] => []

/-- The one value that a text holds, with nothing but white space around it. -/
def readDocument (limit : Nat) (input : Text) : Except Failure Value :=
  match readValue limit limit [] (skipMark input) with
  | .error e => .error e
  | .ok (v, rest) =>
    match skipSpace rest with
    | [] => .ok v
    | c :: rest' => .error ⟨.trailingData c, c :: rest'⟩

/-- The tree that a decoded text denotes, or its located fault. -/
def parseText (limit : Nat) (input : Text) : Except ParseError Value :=
  match readDocument limit input with
  | .ok v => .ok v
  | .error f => .error (.ofFailure input f)

end CanonJson.Syntax
