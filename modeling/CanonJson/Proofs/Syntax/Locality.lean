import CanonJson.Proofs.Syntax.Acceptance
/-!
# Where a document goes wrong

The reader stops at the first place where no document can go on. Each reader reports its failure by the
input that is left from there, and `FailsIn` says what all these failures have in common: the text in front
can still be prolonged to what the reader was after, the failure lies at the end of the input exactly if the
end is what is wrong, and it is not about data behind the document. Several faults are reported in front of
the place where they show: at the opening quote of a string without an end, at the backslash of an escape,
at a comma in front of a closing bracket. Only an escape that should have been the second half of a pair
lies behind text that spells no code point yet.

The containers that are open at a failure are closed by their brackets, for which the room under the limit
suffices (`exists_closes`). So the text in front of a failure is the beginning of a document that the reader
accepts under the same limit.
-/

namespace CanonJson

namespace Syntax

open Grammar

/-- A text without surrogates prolongs the given one to a text with the property. -/
def Viable (P : Text → Prop) (t : Text) : Prop :=
  ∃ s, s.SurrogateFree ∧ P (t ++ s)

/-- The failure lies in the input, behind text that was on its way to the property. -/
structure FailsIn (P : Text → Prop) (input : Text) (f : Failure) : Prop where
  viable : ∃ t, Viable P t ∧ input = t ++ f.rest
  atEnd : f.rest = [] ↔ f.fault.code = .unexpectedEnd
  notTrailing : f.fault.code ≠ .trailingData

section FailsIn

variable {P Q : Text → Prop} {input : Text} {f : Failure}

theorem viable_ofChars {t : Text} (cs : List Char) (h : P (t ++ Text.ofChars cs)) : Viable P t :=
  ⟨_, Text.surrogateFree_ofChars cs, h⟩

theorem viable_self {t : Text} (h : P t) : Viable P t :=
  ⟨[], Text.surrogateFree_nil, by rwa [List.append_nil]⟩

theorem failsIn_behind {before rest : Text} {c : CodePoint} {fault : Fault} (h : Viable P before)
    (hcode : fault.code ≠ .unexpectedEnd ∧ fault.code ≠ .trailingData) :
    FailsIn P (before ++ c :: rest) ⟨fault, c :: rest⟩ where
  viable := ⟨before, h, rfl⟩
  atEnd := by simpa using hcode.1
  notTrailing := hcode.2

theorem failsIn_front {rest : Text} {c : CodePoint} {fault : Fault} (h : Viable P [])
    (hcode : fault.code ≠ .unexpectedEnd ∧ fault.code ≠ .trailingData) :
    FailsIn P (c :: rest) ⟨fault, c :: rest⟩ :=
  failsIn_behind h hcode

theorem failsIn_end {expected : Expected} (h : Viable P input) :
    FailsIn P (input ++ []) ⟨.endOfInput expected, []⟩ where
  viable := ⟨input, h, rfl⟩
  atEnd := by simp [Fault.code]
  notTrailing := by simp [Fault.code]

/-- A failure inside a part is a failure of the whole, if the part can be prolonged to the whole. -/
theorem FailsIn.within (before : Text) (h : FailsIn P input f)
    (hwhole : ∀ t, P t → Viable Q (before ++ t)) : FailsIn Q (before ++ input) f where
  viable := by
    obtain ⟨t, ⟨s, hs, ht⟩, hinput⟩ := h.viable
    obtain ⟨s', hs', ht'⟩ := hwhole _ ht
    refine ⟨before ++ t, ⟨s ++ s', Text.surrogateFree_append.mpr ⟨hs, hs'⟩, ?_⟩, ?_⟩
    · simpa only [List.append_assoc] using ht'
    · rw [hinput, List.append_assoc]
  atEnd := h.atEnd
  notTrailing := h.notTrailing

end FailsIn

/-! ### Strings -/

/-- What stands between the quotes of some string. -/
def IsBody (t : Text) : Prop :=
  ∃ s, StringBody t s

theorem viable_isBody_nil : Viable IsBody [] :=
  viable_self ⟨[], .nil⟩

theorem failsIn_readLow {s input : Text} {high : Nat} {f : Failure} (hs : UnitEscape s high)
    (hhigh : isHigh high = true) (h : readLow (s ++ input) high input = .error f) :
    FailsIn IsBody (s ++ input) f := by
  have hlone : FailsIn IsBody (s ++ input) ⟨.loneHighSurrogate high, s ++ input⟩ := by
    cases hs
    exact failsIn_front viable_isBody_nil (by simp [Fault.code])
  unfold readLow at h
  split at h
  · split at h
    · split at h
      · -- The second escape is the one that is wrong, and a low surrogate could stand in its place.
        have hlow : UnitEscape (Text.ofChars ['\\', 'u', 'd', 'c', '0', '0']) 0xDC00 :=
          .mk (CodePoint.ofChar 'd') (CodePoint.ofChar 'c') (CodePoint.ofChar '0') (CodePoint.ofChar '0')
            13 12 0 0 (by decide) (by decide) (by decide) (by decide)
        have hpair := StringPoint.pair s _ high 0xDC00 hs hlow (isHigh_iff.mp hhigh) (by decide)
        have hbody := StringBody.cons _ [] _ [] hpair .nil
        rw [List.append_nil] at hbody
        obtain rfl := Except.error.inj h
        exact failsIn_behind (viable_ofChars _ ⟨_, hbody⟩) (by simp [Fault.code])
      · split at h
        · simp at h
        · obtain rfl := Except.error.inj h
          exact hlone
    · obtain rfl := Except.error.inj h
      exact hlone
  · obtain rfl := Except.error.inj h
    exact hlone

theorem failsIn_readNumericEscape {input : Text} {f : Failure}
    (h : readNumericEscape (Text.ofChars ['\\', 'u'] ++ input) input = .error f) :
    FailsIn IsBody (Text.ofChars ['\\', 'u'] ++ input) f := by
  unfold readNumericEscape at h
  split at h
  · obtain rfl := Except.error.inj h
    exact failsIn_front viable_isBody_nil (by simp [Fault.code])
  · rename_i u rest hhex
    obtain ⟨digits, hunit, rfl⟩ := exists_unitEscape_of_readHex? hhex
    split at h
    · obtain rfl := Except.error.inj h
      exact failsIn_front viable_isBody_nil (by simp [Fault.code])
    · split at h
      · rename_i hhigh
        rw [← List.append_assoc] at h ⊢
        exact failsIn_readLow hunit hhigh h
      · simp at h

theorem failsIn_stringStep {start input : Text} {f : Failure}
    (h : stringStep start input = .error f) :
    f = ⟨.unterminatedString, start⟩ ∨ FailsIn IsBody input f := by
  unfold stringStep at h
  split at h
  · exact .inl (Except.error.inj h).symm
  · split at h
    · simp at h
    · split at h
      · rename_i hbackslash
        obtain rfl := CodePoint.is_iff.mp hbackslash
        split at h
        · exact .inl (Except.error.inj h).symm
        · split at h
          · simp at h
          · right
            split at h
            · rename_i hu
              obtain rfl := CodePoint.is_iff.mp hu
              exact failsIn_readNumericEscape (map_eq_error_iff.mp h)
            · obtain rfl := Except.error.inj h
              exact failsIn_front viable_isBody_nil (by simp [Fault.code])
      · right
        split at h
        · obtain rfl := Except.error.inj h
          exact failsIn_front viable_isBody_nil (by simp [Fault.code])
        · simp at h

theorem failsIn_readStringFrom {start input acc : Text} {f : Failure}
    (h : readStringFrom start input acc = .error f) :
    f = ⟨.unterminatedString, start⟩ ∨ FailsIn IsBody input f := by
  fun_induction readStringFrom start input acc with
  | case1 input acc e hstep =>
    obtain rfl := Except.error.inj h
    exact failsIn_stringStep hstep
  | case2 => simp at h
  | case3 input acc c rest hstep ih =>
    obtain ⟨s, hpoint, rfl⟩ := stringPoint_of_stringStep hstep
    apply (ih h).imp_right
    intro hfails
    apply hfails.within s
    rintro t ⟨body, hbody⟩
    exact viable_self ⟨c :: body, .cons s t c body hpoint hbody⟩

theorem failsIn_readString {input : Text} {f : Failure}
    (h : readString (CodePoint.ofChar '"' :: input) input = .error f) :
    FailsIn (fun t => ∃ s, Str t s) (CodePoint.ofChar '"' :: input) f := by
  rcases failsIn_readStringFrom h with rfl | hfails
  · apply failsIn_front
    · exact viable_ofChars ['"', '"'] ⟨[], [], .nil, rfl⟩
    · simp [Fault.code]
  · apply hfails.within [CodePoint.ofChar '"']
    rintro body ⟨s, hbody⟩
    exact viable_ofChars ['"'] ⟨s, body, hbody, rfl⟩

/-! ### Keys and scalars -/

theorem viable_keyText {w : Text} (hw : Space w) : Viable (fun t => ∃ key, KeyText t key) w := by
  apply viable_ofChars ['"', '"', ':']
  exact ⟨[], w, Text.ofChars ['"', '"'], [], hw, ⟨[], .nil, rfl⟩, space_nil, by simp [Text.ofChars]⟩

theorem viable_keyText_of_str {w s w' key : Text} (hw : Space w) (hs : Str s key) (hw' : Space w') :
    Viable (fun t => ∃ key, KeyText t key) (w ++ s ++ w') :=
  viable_ofChars [':'] ⟨key, w, s, w', hw, hs, hw', rfl⟩

theorem failsIn_readKey {input : Text} {f : Failure} (h : readKey input = .error f) :
    FailsIn (fun t => ∃ key, KeyText t key) input f := by
  unfold readKey at h
  split at h
  · rename_i hskip
    obtain ⟨w, hw, rfl⟩ := exists_space_of_skipSpace hskip
    obtain rfl := Except.error.inj h
    exact failsIn_end (viable_keyText hw)
  · rename_i c rest hskip
    obtain ⟨w, hw, rfl⟩ := exists_space_of_skipSpace hskip
    split at h
    · rename_i hquote
      obtain rfl := CodePoint.is_iff.mp hquote
      split at h
      · rename_i e hread
        obtain rfl := Except.error.inj h
        apply (failsIn_readString hread).within w
        rintro s ⟨key, hs⟩
        simpa using viable_keyText_of_str hw hs space_nil
      · rename_i key rest' hread
        obtain ⟨body, hbody, rfl⟩ := readString_eq_ok_iff.mp hread
        have hstr : Str (CodePoint.ofChar '"' :: body ++ [CodePoint.ofChar '"']) key := ⟨body, hbody, rfl⟩
        -- The key is complete: only white space and a colon are to come.
        split at h
        · rename_i hskip'
          obtain ⟨w', hw', rfl⟩ := exists_space_of_skipSpace hskip'
          obtain rfl := Except.error.inj h
          simpa using failsIn_end (viable_keyText_of_str hw hstr hw')
        · rename_i d rest'' hskip'
          obtain ⟨w', hw', rfl⟩ := exists_space_of_skipSpace hskip'
          split at h
          · simp at h
          · obtain rfl := Except.error.inj h
            simpa using failsIn_behind (viable_keyText_of_str hw hstr hw') (by simp [Fault.code])
    · obtain rfl := Except.error.inj h
      exact failsIn_behind (viable_keyText hw) (by simp [Fault.code])

theorem viable_leaf_nil : Viable (fun t => ∃ v, Leaf t v) [] :=
  viable_ofChars ['n', 'u', 'l', 'l'] ⟨.null, .literal _ .null (by simp [literals])⟩

theorem failsIn_readScalar {c : CodePoint} {rest : Text} {f : Failure}
    (h : readScalar (c :: rest) = .error f) : FailsIn (fun t => ∃ v, Leaf t v) (c :: rest) f := by
  simp only [readScalar] at h
  split at h
  · rename_i hquote
    obtain rfl := CodePoint.is_iff.mp hquote
    apply (failsIn_readString (map_eq_error_iff.mp h)).within []
    rintro t ⟨s, hs⟩
    exact viable_self ⟨.string s, .string t s hs⟩
  · split at h
    · simp only [readNumber] at h
      split at h
      · simp at h
      · obtain rfl := Except.error.inj h
        exact failsIn_front viable_leaf_nil (by simp [Fault.code])
    · simp only [readLiteral] at h
      split at h
      · simp at h
      · split at h
        · obtain rfl := Except.error.inj h
          exact failsIn_front viable_leaf_nil (by simp [Fault.code])
        · obtain rfl := Except.error.inj h
          exact failsIn_front viable_leaf_nil (by simp [Fault.code])

/-! ### Values -/

/-- White space and a value that the room suffices for. -/
def IsValue (room : Nat) (t : Text) : Prop :=
  ∃ w s v, Space w ∧ Denotes s v ∧ v.depth ≤ room ∧ t = w ++ s

theorem viable_isValue {room : Nat} {w : Text} (hw : Space w) : Viable (IsValue room) w :=
  viable_ofChars ['n', 'u', 'l', 'l'] ⟨w, _, .null, hw, .null, Nat.zero_le room, rfl⟩

theorem failsIn_openContainer {b : Bracket} {input : Text} {f : Failure} (room : Nat)
    (h : openContainer b input = .error f) :
    FailsIn (IsValue (room + 1)) (CodePoint.ofChar b.opener :: input) f := by
  -- Only an object reads on behind its bracket; one member with any value closes it.
  have hkey : ∀ w t, Space w → (∃ key, KeyText t key) →
      Viable (IsValue (room + 1)) (CodePoint.ofChar '\x7b' :: (w ++ t)) := by
    rintro w t hw ⟨key, ht⟩
    apply viable_ofChars ['n', 'u', 'l', 'l', '\x7d']
    have hmembers := (MoreMembers.none [] space_nil).members (ht.append_left hw) space_nil .null
    refine ⟨[], _, _, space_nil, .object _ _ hmembers, ?_, by simp [Text.ofChars]⟩
    simp [Value.depth, Value.membersDepth]
  unfold openContainer at h
  split at h
  · rename_i c rest hskip
    obtain ⟨w, hw, rfl⟩ := exists_space_of_skipSpace hskip
    split at h
    · simp at h
    · split at h
      · simp at h
      · split at h
        · rename_i e hread
          obtain rfl := Except.error.inj h
          exact (failsIn_readKey hread).within (CodePoint.ofChar '\x7b' :: w) fun t ht => hkey w t hw ht
        · simp at h
  · rename_i hskip
    obtain ⟨w, hw, rfl⟩ := exists_space_of_skipSpace hskip
    split at h
    · simp at h
    · obtain rfl := Except.error.inj h
      obtain ⟨s, hs, ht⟩ := viable_keyText hw
      obtain ⟨s', hs', hvalue⟩ := hkey [] _ space_nil ht
      have hviable : Viable (IsValue (room + 1)) (CodePoint.ofChar '\x7b' :: w) :=
        ⟨s ++ s', Text.surrogateFree_append.mpr ⟨hs, hs'⟩, by simpa using hvalue⟩
      exact failsIn_end hviable

theorem failsIn_beginValue {limit room : Nat} {input : Text} {f : Failure}
    (h : beginValue limit room input = .error f) : FailsIn (IsValue room) input f := by
  unfold beginValue at h
  split at h
  · rename_i hskip
    obtain ⟨w, hw, rfl⟩ := exists_space_of_skipSpace hskip
    obtain rfl := Except.error.inj h
    exact failsIn_end (viable_isValue hw)
  · rename_i c rest hskip
    obtain ⟨w, hw, rfl⟩ := exists_space_of_skipSpace hskip
    split at h
    · rename_i hopener
      split at h
      · obtain rfl := Except.error.inj h
        exact failsIn_behind (viable_isValue hw) (by simp [Fault.code])
      · rename_i hroom
        obtain ⟨room, rfl⟩ := Nat.exists_eq_succ_of_ne_zero hroom
        have hfails := failsIn_openContainer room h
        rw [← ofChar_opener hopener] at hfails
        apply hfails.within w
        rintro t ⟨w', s, v, hw', hs, hv, rfl⟩
        exact viable_self ⟨w ++ w', s, v, space_append hw hw', hs, hv, (List.append_assoc ..).symm⟩
    · apply (failsIn_readScalar (map_eq_error_iff.mp h)).within w
      rintro t ⟨v, hleaf⟩
      exact viable_self ⟨w, t, v, hw, hleaf.denotes, by rw [hleaf.depth]; exact Nat.zero_le room, rfl⟩

/-! ### Open containers -/

/-- What brings the open containers to an end behind a finished value, within the room. -/
def IsClosing (room : Nat) (stack : List Frame) (v : Value) (t : Text) : Prop :=
  ∃ result, Closes stack v t result ∧ result.depth ≤ room + stack.length

theorem isClosing_cons {room : Nat} {f : Frame} {stack : List Frame} {v u : Value} {s t : Text}
    (hs : Completes f v s u) (ht : IsClosing (room + 1) stack u t) :
    IsClosing room (f :: stack) v (s ++ t) := by
  obtain ⟨result, hcloses, hdepth⟩ := ht
  refine ⟨result, ⟨s, t, u, hs, hcloses, rfl⟩, ?_⟩
  rw [List.length_cons]
  omega

theorem exists_closes {room : Nat} {stack : List Frame} {v : Value} (hstack : Fits room stack)
    (hv : v.depth ≤ room) : ∃ t : Text, t.SurrogateFree ∧ IsClosing room stack v t := by
  induction stack generalizing room v with
  | nil => exact ⟨[], Text.surrogateFree_nil, v, ⟨rfl, rfl⟩, hv⟩
  | cons f stack ih =>
    obtain ⟨t, ht, hclosing⟩ := ih hstack.2 (depth_close_le hstack.1 hv)
    refine ⟨[CodePoint.ofChar f.bracket.closer] ++ t, ?_, ?_⟩
    · exact Text.surrogateFree_append.mpr ⟨Text.surrogateFree_ofChars [f.bracket.closer], ht⟩
    · exact isClosing_cons (completes_close f v space_nil) hclosing

/-- Behind a value inside a container there may always be white space and the end of the container. -/
theorem viable_isClosing {room : Nat} {f : Frame} {stack : List Frame} {v : Value} {w : Text}
    (hstack : Fits room (f :: stack)) (hv : v.depth ≤ room) (hw : Space w) :
    Viable (IsClosing room (f :: stack) v) w := by
  obtain ⟨t, ht, hclosing⟩ := exists_closes hstack.2 (depth_close_le hstack.1 hv)
  refine ⟨[CodePoint.ofChar f.bracket.closer] ++ t, ?_, ?_⟩
  · exact Text.surrogateFree_append.mpr ⟨Text.surrogateFree_ofChars [f.bracket.closer], ht⟩
  · rw [← List.append_assoc]
    exact isClosing_cons (completes_close f v hw) hclosing

/-- Behind a comma and a key inside an object there may be any value. -/
theorem viable_isClosing_key {room : Nat} {members : List (Text × Value)} {key key' : Text}
    {stack : List Frame} {v : Value} {w w' t : Text} (hstack : Fits room (.object members key :: stack))
    (hv : v.depth ≤ room) (hw : Space w) (hw' : Space w') (ht : KeyText t key') :
    Viable (IsClosing room (.object members key :: stack) v) (w ++ CodePoint.ofChar ',' :: w' ++ t) := by
  let next : Frame := .object ((key, v) :: members) key'
  have hnext : nextEntry (.object members key) v (skipSpace (w' ++ t)) = .ok (next, []) := by
    obtain ⟨t', hkey, hskip⟩ := skipSpace_keyText ht []
    rw [List.append_nil, List.append_nil] at hskip
    have hread := readKey_of_keyText hkey []
    rw [List.append_nil] at hread
    rw [skipSpace_append hw', hskip, nextEntry, hread]
  obtain ⟨s, hs, hcompletes⟩ := completes_of_nextEntry hw hnext
  rw [List.append_nil] at hs
  have hdepth : (next.close .null).depth ≤ room + 1 :=
    depth_close_le (depth_nextEntry_le hstack.1 hv hnext) (Nat.zero_le room)
  obtain ⟨closing, hfree, hclosing⟩ := exists_closes hstack.2 hdepth
  have hnull := hcompletes space_nil Denotes.null (completes_close next .null space_nil)
  refine ⟨Text.ofChars ['n', 'u', 'l', 'l', '\x7d'] ++ closing, ?_, ?_⟩
  · exact Text.surrogateFree_append.mpr ⟨Text.surrogateFree_ofChars _, hfree⟩
  · have hclosed := isClosing_cons hnull hclosing
    rw [← hs] at hclosed
    simpa [Text.ofChars, next, Frame.bracket, Bracket.closer] using hclosed

theorem readKey_of_nextEntry {f : Frame} {v : Value} {input : Text} {e : Failure}
    (h : nextEntry f v input = .error e) :
    ∃ members key, f = .object members key ∧ readKey input = .error e := by
  cases f with
  | array items => simp [nextEntry] at h
  | object members key =>
    refine ⟨members, key, rfl, ?_⟩
    simp only [nextEntry] at h
    split at h
    · rename_i hread
      rw [hread]
      exact congrArg Except.error (Except.error.inj h)
    · simp at h

theorem failsIn_attach {room : Nat} {stack : List Frame} {v : Value} {input : Text} {f : Failure}
    (hstack : Fits room stack) (hv : v.depth ≤ room) (h : attach room stack v input = .error f) :
    FailsIn (IsClosing room stack v) input f := by
  induction stack generalizing room v input with
  | nil => simp [attach] at h
  | cons frame stack ih =>
    unfold attach at h
    split at h
    · rename_i hskip
      obtain ⟨w, hw, rfl⟩ := exists_space_of_skipSpace hskip
      obtain rfl := Except.error.inj h
      exact failsIn_end (viable_isClosing hstack hv hw)
    · rename_i c rest hskip
      obtain ⟨w, hw, rfl⟩ := exists_space_of_skipSpace hskip
      split at h
      · rename_i hcomma
        obtain rfl := CodePoint.is_iff.mp hcomma
        split at h
        · obtain rfl := Except.error.inj h
          exact failsIn_behind (viable_isClosing hstack hv hw) (by simp [Fault.code])
        · split at h
          · rename_i e hnext
            obtain rfl := Except.error.inj h
            obtain ⟨members, key, rfl, hread⟩ := readKey_of_nextEntry hnext
            obtain ⟨w', hw', hrest⟩ := exists_space rest
            have hfails := (failsIn_readKey hread).within
              (Q := IsClosing room (.object members key :: stack) v) (w ++ CodePoint.ofChar ',' :: w') <| by
              rintro t ⟨key', ht⟩
              exact viable_isClosing_key hstack hv hw hw' ht
            rw [hrest]
            simpa using hfails
          · simp at h
      · split at h
        · rename_i hcloser
          obtain rfl := CodePoint.is_iff.mp hcloser
          have hfails := ih hstack.2 (depth_close_le hstack.1 hv) h
          have hwhole := hfails.within (Q := IsClosing room (frame :: stack) v)
            (w ++ [CodePoint.ofChar frame.bracket.closer]) <| by
            intro t ht
            exact viable_self (isClosing_cons (completes_close frame v hw) ht)
          simpa using hwhole
        · obtain rfl := Except.error.inj h
          exact failsIn_behind (viable_isClosing hstack hv hw) (by simp [Fault.code])

/-! ### Runs -/

/-- What the reader has still to see in front of one more value: the value and the end of what is open. -/
def IsRemainder (room : Nat) (stack : List Frame) (t : Text) : Prop :=
  ∃ w s v c, Space w ∧ Denotes s v ∧ IsClosing room stack v c ∧ t = w ++ s ++ c

theorem failsIn_readValue {limit room : Nat} {stack : List Frame} {input : Text} {f : Failure}
    (hstack : Fits room stack) (h : readValue limit room stack input = .error f) :
    FailsIn (IsRemainder room stack) input f := by
  fun_induction readValue limit room stack input with
  | case1 room stack input e hbegin =>
    obtain rfl := Except.error.inj h
    apply (failsIn_beginValue hbegin).within []
    rintro t ⟨w, s, v, hw, hs, hv, rfl⟩
    obtain ⟨c, hc, hclosing⟩ := exists_closes hstack hv
    exact ⟨c, hc, w, s, v, c, hw, hs, hclosing, rfl⟩
  | case2 room stack input frame rest hbegin ih =>
    obtain ⟨w, s, hw, hopens, hroom, rfl⟩ := opens_of_beginValue hbegin
    obtain ⟨room, rfl⟩ := Nat.exists_eq_succ_of_ne_zero hroom
    have hframe : frame.depth ≤ room := by cases hopens <;> exact Nat.zero_le room
    apply (ih ⟨hframe, hstack⟩ h).within
    rintro t ⟨w', s', v, c, hw', hs', ⟨result, ⟨c₁, c₂, u, hcompletes, hcloses, rfl⟩, hdepth⟩, rfl⟩
    apply viable_self
    refine ⟨w, _, u, c₂, hw, denotes_of_opens hopens hw' hs' hcompletes, ⟨result, hcloses, ?_⟩, ?_⟩
    · simp only [Nat.succ_eq_add_one, Nat.add_sub_cancel, List.length_cons] at hdepth
      omega
    · simp only [List.append_assoc]
  | case3 room stack input v rest hbegin e hattach =>
    obtain rfl := Except.error.inj h
    obtain ⟨w, s, hw, hs, hv, rfl⟩ := denotes_of_beginValue hbegin
    apply (failsIn_attach hstack hv hattach).within
    intro c hclosing
    exact viable_self ⟨w, s, v, c, hw, hs, hclosing, rfl⟩
  | case4 room stack input v rest hbegin room' stack' rest' hattach ih =>
    obtain ⟨w, s, hw, hs, hv, rfl⟩ := denotes_of_beginValue hbegin
    obtain ⟨taken, hsound, rfl⟩ := attach_sound hattach
    obtain ⟨hfits, hsum⟩ := fits_attach hstack hv hattach
    have hfails := (ih hfits h).within (Q := IsRemainder room stack) (w ++ s ++ taken) <| by
      rintro t ⟨w', s', v', c, hw', hs', ⟨result, hcloses, hdepth⟩, rfl⟩
      apply viable_self
      refine ⟨w, s, v, taken ++ w' ++ s' ++ c, hw, hs, ⟨result, hsound hw' hs' hcloses, ?_⟩, ?_⟩
      · rwa [← hsum]
      · simp only [List.append_assoc]
    simpa [Attached.rest] using hfails
  | case5 => simp at h

/-- The beginning of what was read can be prolonged to a document, and is one if the fault is behind it. -/
theorem failsIn_readDocument {limit : Nat} {t : Text} {f : Failure}
    (h : readDocument limit t = .error f) :
    ∃ before s v, t = before ++ f.rest ∧ s.SurrogateFree ∧ Document (before ++ s) v ∧ v.depth ≤ limit
      ∧ (f.rest = [] ↔ f.fault.code = .unexpectedEnd) ∧ (f.fault.code = .trailingData → s = []) := by
  obtain ⟨mark, hmark, ht⟩ := exists_mark t
  have hfits : Fits limit [] := trivial
  unfold readDocument at h
  split at h
  · rename_i e hread
    obtain rfl := Except.error.inj h
    have hfails := failsIn_readValue hfits hread
    obtain ⟨before, ⟨s, hs, w, body, v, c, hw, hbody, ⟨result, ⟨rfl, rfl⟩, hdepth⟩, heq⟩, hbefore⟩ := hfails.viable
    refine ⟨mark ++ before, s, _, ?_, hs, ⟨mark, w, body, [], hmark, hw, hbody, space_nil, ?_⟩, hdepth,
      hfails.atEnd, fun hcode => absurd hcode hfails.notTrailing⟩
    · rw [List.append_assoc, ← hbefore]
      exact ht
    · rw [List.append_assoc, heq]
      simp only [List.append_assoc]
  · rename_i v rest hread
    split at h
    · simp at h
    · rename_i c rest' hskip
      obtain rfl := Except.error.inj h
      obtain ⟨w', hw', rfl⟩ := exists_space_of_skipSpace hskip
      obtain ⟨w, body, u, c', hw, hbody, ⟨rfl, rfl⟩, hinput⟩ := denotes_of_readValue hread
      refine ⟨mark ++ w ++ body ++ w', [], v, ?_, Text.surrogateFree_nil, ?_, depth_le_of_readValue hfits hread,
        by simp [Fault.code], fun _ => rfl⟩
      · rw [ht, hinput]
        simp
      · rw [List.append_nil]
        exact ⟨mark, w, body, w', hmark, hw, hbody, hw', rfl⟩

end Syntax

/-! ### Located faults -/

/-- The line counts the line feeds in front, and the column the code points behind the last of them. -/
theorem ParseError.position_spec (before : Text) :
    (ParseError.position before).1 = before.count (CodePoint.ofChar '\n') + 1
      ∧ ∃ above line : Text, before = above ++ line ∧ (above = [] ∨ ∃ a, above = a ++ [CodePoint.ofChar '\n'])
        ∧ CodePoint.ofChar '\n' ∉ line ∧ (ParseError.position before).2 = line.length + 1 := by
  constructor
  · show before.countP (fun c => c.is '\n') + 1 = _
    rw [List.count]
    congr 2
    funext c
    rw [Bool.eq_iff_iff, CodePoint.is_iff, beq_iff_eq]
  · let inLine : CodePoint → Bool := fun c => !c.is '\n'
    refine ⟨(before.reverse.dropWhile inLine).reverse, (before.reverse.takeWhile inLine).reverse, ?_, ?_, ?_, ?_⟩
    · rw [← List.reverse_append, List.takeWhile_append_dropWhile, List.reverse_reverse]
    · have hhalts := Text.halts_dropWhile inLine before.reverse
      cases hdrop : before.reverse.dropWhile inLine with
      | nil => exact .inl rfl
      | cons c rest =>
        rw [hdrop, Text.halts_cons, Bool.not_eq_false', CodePoint.is_iff] at hhalts
        exact .inr ⟨rest.reverse, by rw [List.reverse_cons, hhalts]⟩
    · intro hmem
      have hline := List.all_eq_true.mp List.all_takeWhile _ (List.mem_reverse.mp hmem)
      simp [inLine] at hline
    · rw [List.length_reverse]
      rfl

theorem ParseError.ofFailure_append (before : Text) (f : Failure) :
    ParseError.ofFailure (before ++ f.rest) f = .behind f.fault before.length before := by
  simp [ofFailure]

theorem parse_text_eq {t : Text} (ht : t.SurrogateFree) (limit : Nat) :
    parse limit (.text t) = (Syntax.readDocument limit t).mapError fun f => .malformed (.ofFailure t f) := by
  rw [parse, Source.decode_text ht, ok_bind, Syntax.parseText]
  cases Syntax.readDocument limit t <;> rfl

theorem parse_text_eq_error {t : Text} (ht : t.SurrogateFree) {limit : Nat} {p : Problem}
    (h : parse limit (.text t) = .error p) :
    ∃ f, Syntax.readDocument limit t = .error f ∧ p = .malformed (.ofFailure t f) := by
  rw [parse_text_eq ht] at h
  cases hread : Syntax.readDocument limit t with
  | ok v =>
    rw [hread] at h
    cases h
  | error f =>
    rw [hread] at h
    exact ⟨f, rfl, (Except.error.inj h).symm⟩

/-- A text that cannot be read has a located fault in it: at the end of the text exactly if the end came too
early, with the line and the column of its offset, and behind a text that can be prolonged to a document
within the same limit, or is one already if all that is wrong is that it goes on. -/
theorem parse_text_error_local (t : Text) (ht : t.SurrogateFree) (limit : Nat) (p : Problem)
    (h : parse limit (.text t) = .error p) :
    ∃ e, p = .malformed e ∧ e.offset ≤ t.length
      ∧ (e.offset = t.length ↔ e.fault.code = .unexpectedEnd)
      ∧ e.line = (t.take e.offset).count (CodePoint.ofChar '\n') + 1
      ∧ (∃ above line : Text, t.take e.offset = above ++ line
        ∧ (above = [] ∨ ∃ a, above = a ++ [CodePoint.ofChar '\n']) ∧ CodePoint.ofChar '\n' ∉ line
        ∧ e.column = line.length + 1)
      ∧ ∃ s v, parse limit (.text (t.take e.offset ++ s)) = .ok v
        ∧ (e.fault.code = .trailingData → s = []) := by
  obtain ⟨f, hread, rfl⟩ := parse_text_eq_error ht h
  obtain ⟨before, s, v, rfl, hs, hdocument, hdepth, hend, htrailing⟩ := Syntax.failsIn_readDocument hread
  obtain ⟨hline, hcolumn⟩ := ParseError.position_spec before
  have htake : (before ++ f.rest).take before.length = before := List.take_left
  have hprolonged : (before ++ s).SurrogateFree :=
    Text.surrogateFree_append.mpr ⟨(Text.surrogateFree_append.mp ht).1, hs⟩
  refine ⟨_, rfl, ?_⟩
  rw [ParseError.ofFailure_append]
  simp only [ParseError.behind, htake]
  refine ⟨by simp, ?_, hline, hcolumn, s, v, ?_, htrailing⟩
  · rw [← hend, List.length_append]
    constructor
    · intro hlength
      exact List.length_eq_zero_iff.mp (by omega)
    · intro hrest
      simp [hrest]
  · exact parse_eq_ok_iff.mpr ⟨_, Source.decode_text hprolonged, hdocument, hdepth⟩

open Syntax in
/-- A semicolon on the second line, where an array goes on behind a comma. -/
theorem parse_text_error_local_second_line :
    let t : Text := Text.ofString "[1,\n ;]"
    t.SurrogateFree ∧ ∃ e, parse 1 (.text t) = .error (.malformed e)
      ∧ e.fault.code = .unexpectedCharacter ∧ e.offset = 5 ∧ e.line = 2 ∧ e.column = 2
      ∧ ∃ s v, parse 1 (.text (t.take 5 ++ s)) = .ok v := by
  intro t
  have ht : t.SurrogateFree := by decide
  have hopen : beginValue 1 1 t = .ok (.opened (.array []) (t.drop 1)) := rfl
  have hitem : beginValue 1 0 (t.drop 1) = .ok (.finished (.number (Text.ofString "1")) (t.drop 2)) := rfl
  have hnext : attach 0 [.array []] (.number (Text.ofString "1")) (t.drop 2)
      = .ok (.next 0 [.array [.number (Text.ofString "1")]] (t.drop 5)) := rfl
  have hfault : beginValue 1 0 (t.drop 5) = .error ⟨.unexpectedCharacter (CodePoint.ofChar ';'), t.drop 5⟩ := rfl
  have hread : readDocument 1 t = .error ⟨.unexpectedCharacter (CodePoint.ofChar ';'), t.drop 5⟩ := by
    rw [readDocument, show skipMark t = t from rfl, readValue_of_opened hopen, readValue_of_finished hitem,
      resume, hnext]
    simp only
    rw [readValue_of_error hfault]
  have hparse : parse 1 (.text t)
      = .error (.malformed ⟨.unexpectedCharacter (CodePoint.ofChar ';'), 5, 2, 2⟩) := by
    rw [parse_text_eq ht, hread]
    rfl
  obtain ⟨e, he, -, -, -, -, s, v, hs, -⟩ := parse_text_error_local t ht 1 _ hparse
  cases he
  exact ⟨ht, _, hparse, rfl, rfl, rfl, rfl, s, v, hs⟩

end CanonJson
