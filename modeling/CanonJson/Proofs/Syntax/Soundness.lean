import CanonJson.Proofs.Syntax.Completeness
import CanonJson.Proofs.Value.Tree
/-!
# What an accepting run leaves behind

A run of the reader from a stack of open containers ends well only if the text it took derives a value
and then closes the stack: `Closes` says what the open containers have still to see behind a finished
value, and `denotes_of_readValue` turns a run into a derivation and a text that closes. Each step of the
reader contributes one lemma; the induction over the run only puts them together.

How deep the result is follows from another invariant of the same steps, `Fits`: no open container holds
anything deeper than the room behind it, and room and stack together stay what they were.
-/

namespace CanonJson.Syntax

open Grammar

/-- What follows an item inside an array, up to its closing bracket. -/
inductive MoreItems : Text → List Value → Prop where
  | none (w : Text) (h : Space w) : MoreItems w []
  | some (w rest : Text) (vs : List Value) (h : Space w) (more : Items rest vs) :
      MoreItems (w ++ CodePoint.ofChar ',' :: rest) vs

/-- What follows a value inside an object, up to its closing brace. -/
inductive MoreMembers : Text → List (Text × Value) → Prop where
  | none (w : Text) (h : Space w) : MoreMembers w []
  | some (w rest : Text) (ms : List (Text × Value)) (h : Space w) (more : Members rest ms) :
      MoreMembers (w ++ CodePoint.ofChar ',' :: rest) ms

/-- The text that opens a container and brings it to its first value. -/
inductive Opens : Text → Frame → Prop where
  | array (w : Text) (h : Space w) : Opens (CodePoint.ofChar '[' :: w) (.array [])
  | object (t key : Text) (h : KeyText t key) : Opens (CodePoint.ofChar '\x7b' :: t) (.object [] key)

/-- The text that an open container has still to see behind one of its values, and what it is then. -/
inductive Completes : Frame → Value → Text → Value → Prop where
  | array (items : List Value) (v : Value) (t : Text) (vs : List Value) (h : MoreItems t vs) :
      Completes (.array items) v (t ++ [CodePoint.ofChar ']']) (.array (items.reverse ++ v :: vs))
  | object (members : List (Text × Value)) (key : Text) (v : Value) (t : Text) (ms : List (Text × Value))
      (h : MoreMembers t ms) :
      Completes (.object members key) v (t ++ [CodePoint.ofChar '\x7d'])
        (.object (members.reverse ++ (key, v) :: ms))

/-- The text closes all open containers behind a finished value, and the outermost is the result. -/
def Closes : List Frame → Value → Text → Value → Prop
  | [], v, t, result => t = [] ∧ result = v
  | f :: stack, v, t, result => ∃ s t' u, Completes f v s u ∧ Closes stack u t' result ∧ t = s ++ t'

theorem MoreItems.items {w t s : Text} {v : Value} {vs : List Value} (h : MoreItems s vs)
    (hw : Space w) (ht : Denotes t v) : Items (w ++ t ++ s) (v :: vs) := by
  cases h with
  | none _ h => exact .one w t _ v hw ht h
  | some w' rest vs h more =>
    rw [← List.append_assoc]
    exact .cons w t w' rest v vs hw ht h more

theorem MoreMembers.members {keyText key w t s : Text} {v : Value} {ms : List (Text × Value)}
    (h : MoreMembers s ms) (hkey : KeyText keyText key) (hw : Space w) (ht : Denotes t v) :
    Members (keyText ++ w ++ t ++ s) ((key, v) :: ms) := by
  obtain ⟨w₁, k, w₂, h₁, hk, h₂, rfl⟩ := hkey
  have hmember : ∀ {w₄ : Text}, Space w₄ →
      Member (w₁ ++ k ++ w₂ ++ [CodePoint.ofChar ':'] ++ w ++ t ++ w₄) key v := by
    intro w₄ h₄
    have hmk := Member.mk w₁ k w₂ w t w₄ key v h₁ hk h₂ hw ht h₄
    simpa only [List.append_assoc, List.cons_append, List.nil_append] using hmk
  cases h with
  | none _ h => exact .one _ key v (hmember h)
  | some w' rest ms h more =>
    rw [← List.append_assoc]
    exact .cons _ rest key v ms (hmember h) more

/-- Opening text, one value, and completing text derive the container. -/
theorem denotes_of_opens {s w t c : Text} {f : Frame} {v u : Value} (hopens : Opens s f)
    (hw : Space w) (ht : Denotes t v) (hc : Completes f v c u) : Denotes (s ++ w ++ t ++ c) u := by
  cases hopens with
  | array w' h =>
    cases hc with
    | array items v t' vs hmore =>
      have hitems := hmore.items (space_append h hw) ht
      simpa only [List.append_assoc, List.cons_append, List.reverse_nil, List.nil_append]
        using Denotes.array _ _ hitems
  | object keyText key h =>
    cases hc with
    | object members key v t' ms hmore =>
      have hmembers := hmore.members h hw ht
      simpa only [List.append_assoc, List.cons_append, List.reverse_nil, List.nil_append]
        using Denotes.object _ _ hmembers

/-! ### The steps of the reader -/

theorem opens_of_openContainer {b : Bracket} {input rest : Text} {f : Frame}
    (h : openContainer b input = .ok (.opened f rest)) :
    ∃ s, Opens (CodePoint.ofChar b.opener :: s) f ∧ input = s ++ rest := by
  unfold openContainer at h
  split at h
  · rename_i c rest' hskip
    obtain ⟨w, hw, rfl⟩ := exists_space_of_skipSpace hskip
    split at h
    · simp at h
    · split at h
      · simp only [Except.ok.injEq, Begun.opened.injEq] at h
        obtain ⟨rfl, rfl⟩ := h
        exact ⟨w, .array w hw, rfl⟩
      · split at h
        · simp at h
        · rename_i key rest'' hkey
          simp only [Except.ok.injEq, Begun.opened.injEq] at h
          obtain ⟨rfl, rfl⟩ := h
          obtain ⟨t, ht, hinput⟩ := keyText_of_readKey hkey
          exact ⟨w ++ t, .object _ key (ht.append_left hw), by rw [hinput, List.append_assoc]⟩
  · rename_i hskip
    obtain ⟨w, hw, rfl⟩ := exists_space_of_skipSpace hskip
    split at h
    · simp only [Except.ok.injEq, Begun.opened.injEq] at h
      obtain ⟨rfl, rfl⟩ := h
      exact ⟨w, .array w hw, rfl⟩
    · simp at h

theorem denotes_of_openContainer {b : Bracket} {input rest : Text} {v : Value}
    (h : openContainer b input = .ok (.finished v rest)) :
    ∃ s, Denotes (CodePoint.ofChar b.opener :: s) v ∧ v.depth = 1 ∧ input = s ++ rest := by
  unfold openContainer at h
  split at h
  · rename_i c rest' hskip
    obtain ⟨w, hw, rfl⟩ := exists_space_of_skipSpace hskip
    split at h
    · rename_i hcloser
      simp only [Except.ok.injEq, Begun.finished.injEq] at h
      obtain ⟨rfl, rfl⟩ := h
      obtain rfl := CodePoint.is_iff.mp hcloser
      refine ⟨w ++ [CodePoint.ofChar b.closer], ?_, ?_, by rw [List.append_assoc]; rfl⟩
      · cases b with
        | array => exact .emptyArray w hw
        | object => exact .emptyObject w hw
      · cases b <;> rfl
    · split at h
      · simp at h
      · split at h <;> simp at h
  · split at h <;> simp at h

theorem ofChar_opener {c : CodePoint} (h : (c.is '[' || c.is '\x7b') = true) :
    c = CodePoint.ofChar (if c.is '[' then Bracket.array else Bracket.object).opener := by
  rcases Bool.or_eq_true _ _ ▸ h with hc | hc
  · obtain rfl := CodePoint.is_iff.mp hc
    rfl
  · obtain rfl := CodePoint.is_iff.mp hc
    rfl

theorem opens_of_beginValue {limit room : Nat} {input rest : Text} {f : Frame}
    (h : beginValue limit room input = .ok (.opened f rest)) :
    ∃ w s, Space w ∧ Opens s f ∧ room ≠ 0 ∧ input = w ++ s ++ rest := by
  unfold beginValue at h
  split at h
  · simp at h
  · rename_i c rest' hskip
    obtain ⟨w, hw, rfl⟩ := exists_space_of_skipSpace hskip
    split at h
    · rename_i hopener
      split at h
      · simp at h
      · rename_i hroom
        obtain ⟨s, hs, rfl⟩ := opens_of_openContainer h
        rw [← ofChar_opener hopener] at hs
        exact ⟨w, c :: s, hw, hs, hroom, by rw [List.append_assoc]; rfl⟩
    · simp [map_eq_ok_iff] at h

theorem denotes_of_beginValue {limit room : Nat} {input rest : Text} {v : Value}
    (h : beginValue limit room input = .ok (.finished v rest)) :
    ∃ w t, Space w ∧ Denotes t v ∧ v.depth ≤ room ∧ input = w ++ t ++ rest := by
  unfold beginValue at h
  split at h
  · simp at h
  · rename_i c rest' hskip
    obtain ⟨w, hw, rfl⟩ := exists_space_of_skipSpace hskip
    split at h
    · rename_i hopener
      split at h
      · simp at h
      · rename_i hroom
        obtain ⟨s, hs, hdepth, rfl⟩ := denotes_of_openContainer h
        rw [← ofChar_opener hopener] at hs
        exact ⟨w, c :: s, hw, hs, by omega, by rw [List.append_assoc]; rfl⟩
    · obtain ⟨p, hread, hp⟩ := map_eq_ok_iff.mp h
      simp only [Begun.finished.injEq] at hp
      obtain ⟨rfl, rfl⟩ := hp
      obtain ⟨t, hleaf, ht⟩ := leaf_of_readScalar hread
      exact ⟨w, t, hw, hleaf.denotes, by rw [hleaf.depth]; exact Nat.zero_le _, by rw [ht, List.append_assoc]⟩

theorem nextEntry_array {items : List Value} {v : Value} {input rest : Text} {f : Frame}
    (h : nextEntry (.array items) v input = .ok (f, rest)) :
    f = .array (v :: items) ∧ rest = input := by
  simp only [nextEntry, Except.ok.injEq, Prod.mk.injEq] at h
  exact ⟨h.1.symm, h.2.symm⟩

theorem nextEntry_object {members : List (Text × Value)} {key : Text} {v : Value}
    {input rest : Text} {f : Frame} (h : nextEntry (.object members key) v input = .ok (f, rest)) :
    ∃ t key', KeyText t key' ∧ f = .object ((key, v) :: members) key' ∧ input = t ++ rest := by
  simp only [nextEntry] at h
  split at h
  · simp at h
  · rename_i key' rest' hkey
    simp only [Except.ok.injEq, Prod.mk.injEq] at h
    obtain ⟨rfl, rfl⟩ := h
    obtain ⟨t, ht, hinput⟩ := keyText_of_readKey hkey
    exact ⟨t, key', ht, rfl, hinput⟩

/-- Behind a comma a container completes as it would have before, with one entry more. -/
theorem completes_of_nextEntry {f f' : Frame} {v : Value} {w rest rest' : Text} (hw : Space w)
    (h : nextEntry f v (skipSpace rest) = .ok (f', rest')) :
    ∃ s, rest = s ++ rest' ∧ ∀ {w' t c : Text} {v' u : Value}, Space w' → Denotes t v' →
      Completes f' v' c u → Completes f v (w ++ CodePoint.ofChar ',' :: s ++ w' ++ t ++ c) u := by
  obtain ⟨w₁, hw₁, hrest⟩ := exists_space rest
  cases f with
  | array items =>
    obtain ⟨rfl, rfl⟩ := nextEntry_array h
    refine ⟨w₁, hrest, ?_⟩
    intro w' t c v' u hw' ht hc
    cases hc with
    | array _ _ s vs hmore =>
      have hitems := hmore.items (space_append hw₁ hw') ht
      have hcompletes := Completes.array items v _ _ (MoreItems.some w _ _ hw hitems)
      simpa only [List.append_assoc, List.cons_append, List.nil_append,
        List.reverse_cons] using hcompletes
  | object members key =>
    obtain ⟨keyText, key', hkey, rfl, hskip⟩ := nextEntry_object h
    refine ⟨w₁ ++ keyText, by rw [List.append_assoc, ← hskip]; exact hrest, ?_⟩
    intro w' t c v' u hw' ht hc
    cases hc with
    | object _ _ _ s ms hmore =>
      have hmembers := hmore.members (hkey.append_left hw₁) hw' ht
      have hcompletes := Completes.object members key v _ _ (MoreMembers.some w _ _ hw hmembers)
      simpa only [List.append_assoc, List.cons_append, List.nil_append,
        List.reverse_cons] using hcompletes

theorem completes_close {w : Text} (f : Frame) (v : Value) (hw : Space w) :
    Completes f v (w ++ [CodePoint.ofChar f.bracket.closer]) (f.close v) := by
  cases f with
  | array items =>
    rw [Frame.close, List.reverse_cons]
    exact .array items v w [] (.none w hw)
  | object members key =>
    rw [Frame.close, List.reverse_cons]
    exact .object members key v w [] (.none w hw)

/-- What `attach` did with the text it took, seen from the containers that were open before. -/
def AttachedSoundly (stack : List Frame) (v : Value) (taken : Text) : Attached → Prop
  | .done result _ => Closes stack v taken result
  | .next _ stack' _ => ∀ {w t c : Text} {v' result : Value}, Space w → Denotes t v' →
      Closes stack' v' c result → Closes stack v (taken ++ w ++ t ++ c) result

theorem attach_sound {room : Nat} {stack : List Frame} {v : Value} {input : Text} {r : Attached}
    (h : attach room stack v input = .ok r) :
    ∃ taken, AttachedSoundly stack v taken r ∧ input = taken ++ r.rest := by
  induction stack generalizing room v input with
  | nil =>
    obtain rfl := Except.ok.inj h
    exact ⟨[], ⟨rfl, rfl⟩, rfl⟩
  | cons f stack ih =>
    unfold attach at h
    split at h
    · simp at h
    · rename_i c rest hskip
      obtain ⟨w, hw, rfl⟩ := exists_space_of_skipSpace hskip
      split at h
      · rename_i hcomma
        obtain rfl := CodePoint.is_iff.mp hcomma
        split at h
        · simp at h
        · split at h
          · simp at h
          · rename_i f' rest' hnext
            obtain rfl := Except.ok.inj h
            obtain ⟨s, rfl, hcompletes⟩ := completes_of_nextEntry hw hnext
            refine ⟨w ++ CodePoint.ofChar ',' :: s, ?_, by simp [Attached.rest]⟩
            rintro w' t c v' result hw' ht ⟨s', t', u, hc, hcloses, rfl⟩
            exact ⟨_, t', u, hcompletes hw' ht hc, hcloses, by simp only [List.append_assoc]⟩
      · split at h
        · rename_i hcloser
          obtain rfl := CodePoint.is_iff.mp hcloser
          obtain ⟨taken, hsound, rfl⟩ := ih h
          refine ⟨w ++ [CodePoint.ofChar f.bracket.closer] ++ taken, ?_, by simp⟩
          have hclose := completes_close f v hw
          cases r with
          | done result rest => exact ⟨_, taken, _, hclose, hsound, rfl⟩
          | next room' stack' rest =>
            intro w' t c v' result hw' ht hc
            exact ⟨_, _, _, hclose, hsound hw' ht hc, by simp only [List.append_assoc]⟩
        · simp at h

/-- Every accepting run has a derivation behind it. -/
theorem denotes_of_readValue {limit room : Nat} {stack : List Frame} {input rest : Text}
    {result : Value} (h : readValue limit room stack input = .ok (result, rest)) :
    ∃ w t v c, Space w ∧ Denotes t v ∧ Closes stack v c result ∧ input = w ++ t ++ c ++ rest := by
  fun_induction readValue limit room stack input with
  | case1 => simp at h
  | case2 room stack input f rest₁ hbegin ih =>
    obtain ⟨w, s, hw, hopens, -, rfl⟩ := opens_of_beginValue hbegin
    obtain ⟨w₁, t, v, c, hw₁, ht, ⟨s', t', u, hcompletes, hcloses, rfl⟩, rfl⟩ := ih h
    refine ⟨w, _, u, t', hw, denotes_of_opens hopens hw₁ ht hcompletes, hcloses, ?_⟩
    simp only [List.append_assoc]
  | case3 => simp at h
  | case4 room stack input v rest₁ hbegin room' stack' rest₂ hattach ih =>
    obtain ⟨w, t, hw, ht, -, rfl⟩ := denotes_of_beginValue hbegin
    obtain ⟨taken, hsound, rfl⟩ := attach_sound hattach
    obtain ⟨w₁, t₁, v₁, c, hw₁, ht₁, hcloses, hrest⟩ := ih h
    refine ⟨w, t, v, _, hw, ht, hsound hw₁ ht₁ hcloses, ?_⟩
    simp only [Attached.rest, hrest, List.append_assoc]
  | case5 room stack input v rest₁ hbegin v' rest₂ hattach =>
    simp only [Except.ok.injEq, Prod.mk.injEq] at h
    obtain ⟨rfl, rfl⟩ := h
    obtain ⟨w, t, hw, ht, -, rfl⟩ := denotes_of_beginValue hbegin
    obtain ⟨taken, hsound, rfl⟩ := attach_sound hattach
    exact ⟨w, t, v, taken, hw, ht, hsound, by simp only [Attached.rest, List.append_assoc]⟩

/-! ### Depth -/

/-- The greatest depth of what an open container holds. -/
def Frame.depth : Frame → Nat
  | .array items => Value.itemsDepth items
  | .object members _ => Value.membersDepth members

/-- Every open container holds only what fits into the room behind it. -/
def Fits : Nat → List Frame → Prop
  | _, [] => True
  | room, f :: stack => f.depth ≤ room ∧ Fits (room + 1) stack

theorem depth_close_le {f : Frame} {v : Value} {room : Nat} (hf : f.depth ≤ room)
    (hv : v.depth ≤ room) : (f.close v).depth ≤ room + 1 := by
  cases f with
  | array items =>
    rw [Frame.depth, Value.itemsDepth_le_iff] at hf
    rw [Frame.close, Value.depth, Nat.add_le_add_iff_right, Value.itemsDepth_le_iff]
    intro u hu
    rcases List.mem_cons.mp (List.mem_reverse.mp hu) with rfl | hu
    · exact hv
    · exact hf u hu
  | object members key =>
    rw [Frame.depth, Value.membersDepth_le_iff] at hf
    rw [Frame.close, Value.depth, Nat.add_le_add_iff_right, Value.membersDepth_le_iff]
    intro m hm
    rcases List.mem_cons.mp (List.mem_reverse.mp hm) with rfl | hm
    · exact hv
    · exact hf m hm

theorem depth_nextEntry_le {f f' : Frame} {v : Value} {input rest : Text} {room : Nat}
    (hf : f.depth ≤ room) (hv : v.depth ≤ room) (h : nextEntry f v input = .ok (f', rest)) :
    f'.depth ≤ room := by
  cases f with
  | array items =>
    obtain ⟨rfl, -⟩ := nextEntry_array h
    exact Nat.max_le.mpr ⟨hv, hf⟩
  | object members key =>
    obtain ⟨t, key', -, rfl, -⟩ := nextEntry_object h
    exact Nat.max_le.mpr ⟨hv, hf⟩

/-- What was attached leaves room and stack together at the given sum, and nothing deeper than that. -/
def AttachedFits (total : Nat) : Attached → Prop
  | .done result _ => result.depth ≤ total
  | .next room stack _ => Fits room stack ∧ room + stack.length = total

theorem fits_attach {room : Nat} {stack : List Frame} {v : Value} {input : Text} {r : Attached}
    (hstack : Fits room stack) (hv : v.depth ≤ room) (h : attach room stack v input = .ok r) :
    AttachedFits (room + stack.length) r := by
  induction stack generalizing room v input with
  | nil =>
    obtain rfl := Except.ok.inj h
    exact hv
  | cons f stack ih =>
    obtain ⟨hf, hstack⟩ := hstack
    unfold attach at h
    split at h
    · simp at h
    · split at h
      · split at h
        · simp at h
        · split at h
          · simp at h
          · rename_i f' rest' hnext
            obtain rfl := Except.ok.inj h
            exact ⟨⟨depth_nextEntry_le hf hv hnext, hstack⟩, rfl⟩
      · split at h
        · have hclosed := ih hstack (depth_close_le hf hv) h
          rw [List.length_cons, ← Nat.add_assoc, Nat.add_right_comm]
          exact hclosed
        · simp at h

/-- The result of a run is no deeper than its room and its stack together. -/
theorem depth_le_of_readValue {limit room : Nat} {stack : List Frame} {input rest : Text}
    {result : Value} (hstack : Fits room stack)
    (h : readValue limit room stack input = .ok (result, rest)) :
    result.depth ≤ room + stack.length := by
  fun_induction readValue limit room stack input with
  | case1 => simp at h
  | case2 room stack input f rest₁ hbegin ih =>
    obtain ⟨w, s, -, hopens, hroom, -⟩ := opens_of_beginValue hbegin
    have hf : f.depth = 0 := by cases hopens <;> rfl
    obtain ⟨room, rfl⟩ := Nat.exists_eq_succ_of_ne_zero hroom
    have hdepth := ih ⟨by omega, hstack⟩ h
    simp only [List.length_cons, Nat.succ_sub_one] at hdepth
    omega
  | case3 => simp at h
  | case4 room stack input v rest₁ hbegin room' stack' rest₂ hattach ih =>
    obtain ⟨w, t, -, -, hv, -⟩ := denotes_of_beginValue hbegin
    obtain ⟨hfits, hsum⟩ := fits_attach hstack hv hattach
    rw [← hsum]
    exact ih hfits h
  | case5 room stack input v rest₁ hbegin v' rest₂ hattach =>
    simp only [Except.ok.injEq, Prod.mk.injEq] at h
    obtain ⟨rfl, rfl⟩ := h
    obtain ⟨w, t, -, -, hv, -⟩ := denotes_of_beginValue hbegin
    exact fits_attach hstack hv hattach

end CanonJson.Syntax
