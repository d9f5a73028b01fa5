import CanonJson.Proofs.Layout.RoundTrip
import CanonJson.Proofs.Syntax.Locality
/-!
# What the nesting limit decides

The containers that are open at a place of a document can be counted without reading it: brackets outside of
strings count, and a string ends at its first quote without a backslash in front. `Nesting` is the state of
such a scan, and `FirstOpens` names the first bracket that opens a container while a given number of others
are open.

Two runs of the reader with different limits go in lock-step, since each step depends on the limit only where
a container is opened without room for it (`readValue_more_room`). The run with the smaller limit then stops
at that bracket. Up to there it has opened every container with fewer than the limit open, which `Leads`
carries along the run, so the bracket is the first of its kind in the text.
-/

namespace CanonJson

namespace Syntax

open Grammar

/-! ### Counting brackets -/

inductive Place where
  | outside
  | inside
  | escaped
deriving DecidableEq

/-- How many containers are open, and where a scan stands with respect to strings. -/
structure Nesting where
  opened : Nat
  place : Place
deriving DecidableEq

def isOpener (c : CodePoint) : Bool :=
  c.is '[' || c.is '\x7b'

def isCloser (c : CodePoint) : Bool :=
  c.is ']' || c.is '\x7d'

namespace Nesting

def next (s : Nesting) (c : CodePoint) : Nesting :=
  match s.place with
  | .outside =>
    if c.is '"' then { s with place := .inside }
    else if isOpener c then { s with opened := s.opened + 1 }
    else if isCloser c then { s with opened := s.opened - 1 }
    else s
  | .inside =>
    if c.is '"' then { s with place := .outside }
    else if c.is '\\' then { s with place := .escaped }
    else s
  | .escaped => { s with place := .inside }

/-- The state behind a text from the beginning of a document. -/
def behind (t : Text) : Nesting :=
  t.foldl next ⟨0, .outside⟩

end Nesting

/-- The bracket at the offset opens a container while exactly `count` are open. -/
def OpensAt (count : Nat) (t : Text) (offset : Nat) : Prop :=
  t[offset]?.any isOpener = true ∧ Nesting.behind (t.take offset) = ⟨count, .outside⟩

instance (count : Nat) (t : Text) (offset : Nat) : Decidable (OpensAt count t offset) :=
  inferInstanceAs (Decidable (_ ∧ _))

/-- The first bracket that opens a container while exactly `count` are open is the one at the offset. -/
def FirstOpens (count : Nat) (t : Text) (offset : Nat) : Prop :=
  OpensAt count t offset ∧ ∀ earlier < offset, ¬ OpensAt count t earlier

instance (count : Nat) (t : Text) (offset : Nat) : Decidable (FirstOpens count t offset) :=
  inferInstanceAs (Decidable (_ ∧ _))

theorem FirstOpens.unique {count : Nat} {t : Text} {a b : Nat} (ha : FirstOpens count t a)
    (hb : FirstOpens count t b) : a = b := by
  rcases Nat.lt_trichotomy a b with hlt | heq | hgt
  · exact absurd ha.1 (hb.2 a hlt)
  · exact heq
  · exact absurd hb.1 (ha.2 b hgt)

/-- The text takes the scan from one state to another, and opens nothing while exactly `count` are open. -/
inductive Passes (count : Nat) : Nesting → Text → Nesting → Prop where
  | nil (s : Nesting) : Passes count s [] s
  | cons {s s' : Nesting} {c : CodePoint} {t : Text} (first : isOpener c = true → s ≠ ⟨count, .outside⟩)
      (more : Passes count (s.next c) t s') : Passes count s (c :: t) s'

section Passes

variable {count : Nat} {s s' s'' : Nesting} {t t' : Text}

theorem Passes.append (h : Passes count s t s') (h' : Passes count s' t' s'') :
    Passes count s (t ++ t') s'' := by
  induction h with
  | nil => exact h'
  | cons first _ ih => exact .cons first (ih h')

theorem Passes.one {c : CodePoint} (h : s.next c = s')
    (hopener : isOpener c = true → s ≠ ⟨count, .outside⟩) : Passes count s [c] s' :=
  .cons hopener (by rw [h]; exact .nil s')

theorem Passes.of_forall
    (h : ∀ c ∈ t, s.next c = s ∧ (isOpener c = true → s ≠ ⟨count, .outside⟩)) : Passes count s t s := by
  induction t with
  | nil => exact .nil s
  | cons c t ih =>
    rw [List.forall_mem_cons] at h
    exact .cons h.1.2 (by rw [h.1.1]; exact ih h.2)

theorem Passes.foldl_eq (h : Passes count s t s') : t.foldl Nesting.next s = s' := by
  induction h with
  | nil => rfl
  | cons _ _ ih => exact ih

theorem Passes.not_opens (h : Passes count s t s') {offset : Nat}
    (hopener : t[offset]?.any isOpener = true) :
    (t.take offset).foldl Nesting.next s ≠ ⟨count, .outside⟩ := by
  induction h generalizing offset with
  | nil => simp at hopener
  | cons first _ ih =>
    cases offset with
    | zero => exact first (by simpa using hopener)
    | succ offset => exact ih (by simpa using hopener)

/-- Behind a text that opens nothing too deep, a bracket at the full count is the first of its kind. -/
theorem firstOpens_of_passes {before rest : Text} {c : CodePoint}
    (h : Passes count ⟨0, .outside⟩ before ⟨count, .outside⟩) (hc : isOpener c = true) :
    FirstOpens count (before ++ c :: rest) before.length := by
  refine ⟨⟨by simpa using hc, ?_⟩, ?_⟩
  · rw [List.take_left]
    exact h.foldl_eq
  · rintro earlier hlt ⟨hopener, hbehind⟩
    rw [List.getElem?_append_left hlt] at hopener
    rw [List.take_append_of_le_length (Nat.le_of_lt hlt)] at hbehind
    exact h.not_opens hopener hbehind

end Passes

/-! ### Leaves -/

/-- The text takes the scan from `n` open containers to `n'`, outside of strings at both ends. -/
abbrev Leads (count n : Nat) (t : Text) (n' : Nat) : Prop :=
  Passes count ⟨n, .outside⟩ t ⟨n', .outside⟩

section Leads

variable {count n n' : Nat} {t : Text}

theorem leads_plain (h : ∀ c ∈ t, c.is '"' = false ∧ isOpener c = false ∧ isCloser c = false) :
    Leads count n t n := by
  apply Passes.of_forall
  intro c hc
  obtain ⟨hquote, hopener, hcloser⟩ := h c hc
  simp [Nesting.next, hquote, hopener, hcloser]

theorem leads_opener (b : Bracket) (h : n ≠ count) : Leads count n [CodePoint.ofChar b.opener] (n + 1) := by
  apply Passes.one
  · cases b <;> rfl
  · intro _ heq
    exact h (congrArg Nesting.opened heq)

theorem leads_closer (b : Bracket) : Leads count (n + 1) [CodePoint.ofChar b.closer] n := by
  apply Passes.one
  · cases b <;> rfl
  · cases b <;> exact fun h => absurd h (by decide)

theorem leads_ofChar (ch : Char)
    (h : (CodePoint.ofChar ch).is '"' = false ∧ isOpener (CodePoint.ofChar ch) = false
      ∧ isCloser (CodePoint.ofChar ch) = false) : Leads count n [CodePoint.ofChar ch] n :=
  leads_plain (by simpa using h)

theorem leads_space {w : Text} (hw : Space w) : Leads count n w n := by
  apply leads_plain
  intro c hc
  rcases hw c hc with rfl | rfl | rfl | rfl <;> decide

theorem leads_number (h : Number t) : Leads count n t n := by
  apply leads_plain
  intro c hc
  have hin := inNumber_of_mem_number h c hc
  have hne : ∀ ch, inNumber (CodePoint.ofChar ch) = false → c.is ch = false := by
    intro ch hch
    rw [CodePoint.is_eq_false_iff]
    rintro rfl
    rw [hch] at hin
    exact absurd hin (by decide)
  simp [isOpener, isCloser, hne '"' (by decide), hne '[' (by decide), hne '\x7b' (by decide),
    hne ']' (by decide), hne '\x7d' (by decide)]

theorem passes_inside (h : ∀ c ∈ t, c.is '"' = false ∧ c.is '\\' = false) :
    Passes count ⟨n, .inside⟩ t ⟨n, .inside⟩ := by
  apply Passes.of_forall
  intro c hc
  simp [Nesting.next, h c hc]

theorem passes_escape (e : CodePoint) :
    Passes count ⟨n, .inside⟩ [CodePoint.ofChar '\\', e] ⟨n, .inside⟩ := by
  have hbackslash : Passes count ⟨n, .inside⟩ [CodePoint.ofChar '\\'] ⟨n, .escaped⟩ :=
    .one rfl (by simp)
  have hescaped : Passes count ⟨n, .escaped⟩ [e] ⟨n, .inside⟩ := .one rfl (by simp)
  exact hbackslash.append hescaped

theorem is_eq_false_of_hexValue? {c : CodePoint} {x : Nat} (h : c.hexValue? = some x) {ch : Char}
    (hch : (CodePoint.ofChar ch).hexValue? = none) : c.is ch = false := by
  rw [CodePoint.is_eq_false_iff]
  rintro rfl
  rw [hch] at h
  simp at h

theorem passes_unitEscape {u : Nat} (h : UnitEscape t u) :
    Passes count ⟨n, .inside⟩ t ⟨n, .inside⟩ := by
  obtain ⟨a, b, c, d, x, y, z, w, ha, hb, hc, hd⟩ := h
  apply (passes_escape (CodePoint.ofChar 'u')).append
  apply passes_inside
  have hhex : ∀ e ∈ [a, b, c, d], ∃ x, e.hexValue? = some x := by
    simp [ha, hb, hc, hd]
  intro e he
  obtain ⟨x, hx⟩ := hhex e he
  exact ⟨is_eq_false_of_hexValue? hx (by decide), is_eq_false_of_hexValue? hx (by decide)⟩

theorem passes_stringPoint {c : CodePoint} (h : StringPoint t c) :
    Passes count ⟨n, .inside⟩ t ⟨n, .inside⟩ := by
  cases h with
  | plain c notControl notQuote notBackslash =>
    apply passes_inside
    simpa [CodePoint.is_eq_false_iff] using ⟨notQuote, notBackslash⟩
  | short letter n escape => exact passes_escape _
  | unit t u escape scalar => exact passes_unitEscape escape
  | pair s t high low first second => exact (passes_unitEscape first).append (passes_unitEscape second)

theorem passes_stringBody {s : Text} (h : StringBody t s) :
    Passes count ⟨n, .inside⟩ t ⟨n, .inside⟩ := by
  induction h with
  | nil => exact .nil _
  | cons s t c cs first more ih => exact (passes_stringPoint first).append ih

theorem leads_str {s : Text} (h : Str t s) : Leads count n t n := by
  obtain ⟨body, hbody, rfl⟩ := h
  have hquote : ∀ place, isOpener (CodePoint.ofChar '"') = true → (⟨n, place⟩ : Nesting) ≠ ⟨count, .outside⟩ :=
    fun _ h => absurd h (by decide)
  have hopen : Passes count ⟨n, .outside⟩ [CodePoint.ofChar '"'] ⟨n, .inside⟩ := .one rfl (hquote _)
  have hclose : Passes count ⟨n, .inside⟩ [CodePoint.ofChar '"'] ⟨n, .outside⟩ := .one rfl (hquote _)
  exact (hopen.append (passes_stringBody hbody)).append hclose

theorem leads_keyText {key : Text} (h : KeyText t key) : Leads count n t n := by
  obtain ⟨w, s, w', hw, hs, hw', rfl⟩ := h
  exact (((leads_space hw).append (leads_str hs)).append (leads_space hw')).append
    (leads_ofChar ':' (by decide))

/-! ### Values -/

theorem leads_bracketed (b : Bracket) (h : n ≠ count) (ht : Leads count (n + 1) t (n + 1)) :
    Leads count n (CodePoint.ofChar b.opener :: t ++ [CodePoint.ofChar b.closer]) n :=
  ((leads_opener b h).append ht).append (leads_closer b)

theorem leads_cons {s : Text} {ch : Char}
    (h : (CodePoint.ofChar ch).is '"' = false ∧ isOpener (CodePoint.ofChar ch) = false
      ∧ isCloser (CodePoint.ofChar ch) = false) (ht : Leads count n t n) (hs : Leads count n s n) :
    Leads count n (t ++ CodePoint.ofChar ch :: s) n :=
  ht.append ((leads_ofChar ch h).append hs)

end Leads

mutual

/-- A value leaves as many containers open as it found, and opens none beyond its depth. -/
theorem leads_of_denotes {count n : Nat} {t : Text} {v : Value} :
    Denotes t v → n + v.depth ≤ count → Leads count n t n
  | .null, _ => leads_plain (by decide)
  | .true, _ => leads_plain (by decide)
  | .false, _ => leads_plain (by decide)
  | .number _ h, _ => leads_number h
  | .string _ _ h, _ => leads_str h
  | .emptyArray _ h, hdepth => leads_bracketed .array (by simp [Value.depth] at hdepth; omega) (leads_space h)
  | .array _ _ h, hdepth => by
    rw [Value.depth] at hdepth
    exact leads_bracketed .array (by omega) (leads_of_items h (by omega))
  | .emptyObject _ h, hdepth => leads_bracketed .object (by simp [Value.depth] at hdepth; omega) (leads_space h)
  | .object _ _ h, hdepth => by
    rw [Value.depth] at hdepth
    exact leads_bracketed .object (by omega) (leads_of_members h (by omega))

theorem leads_of_items {count n : Nat} {t : Text} {vs : List Value} :
    Items t vs → n + Value.itemsDepth vs ≤ count → Leads count n t n
  | .one _ _ _ _ before item behind, hdepth => by
    rw [Value.itemsDepth] at hdepth
    exact ((leads_space before).append (leads_of_denotes item (by omega))).append (leads_space behind)
  | .cons _ _ _ _ _ _ before item behind more, hdepth => by
    rw [Value.itemsDepth] at hdepth
    exact leads_cons (by decide)
      (((leads_space before).append (leads_of_denotes item (by omega))).append (leads_space behind))
      (leads_of_items more (by omega))

theorem leads_of_members {count n : Nat} {t : Text} {ms : List (Text × Value)} :
    Members t ms → n + Value.membersDepth ms ≤ count → Leads count n t n
  | .one _ _ _ member, hdepth => by
    rw [Value.membersDepth] at hdepth
    exact leads_of_member member (by omega)
  | .cons _ _ _ _ _ member more, hdepth => by
    rw [Value.membersDepth] at hdepth
    exact leads_cons (by decide) (leads_of_member member (by omega)) (leads_of_members more (by omega))

theorem leads_of_member {count n : Nat} {t k : Text} {v : Value} :
    Member t k v → n + v.depth ≤ count → Leads count n t n
  | .mk _ _ _ _ _ _ _ _ h₁ key h₂ h₃ item h₄, hdepth => by
    have hkey : Leads count n _ n := ((leads_space h₁).append (leads_str key)).append (leads_space h₂)
    exact ((leads_cons (by decide) hkey (leads_space h₃)).append (leads_of_denotes item hdepth)).append
      (leads_space h₄)

end

/-! ### Steps of the reader -/

theorem leads_of_opens {count n : Nat} {s : Text} {f : Frame} (h : Opens s f) (hn : n ≠ count) :
    Leads count n s (n + 1) := by
  cases h with
  | array w h => exact (leads_opener .array hn).append (leads_space h)
  | object t key h => exact (leads_opener .object hn).append (leads_keyText h)

theorem leads_of_nextEntry {count n : Nat} {f f' : Frame} {v : Value} {rest rest' : Text}
    (h : nextEntry f v (skipSpace rest) = .ok (f', rest')) :
    ∃ taken, rest = taken ++ rest' ∧ Leads count n taken n := by
  obtain ⟨w, hw, hrest⟩ := exists_space rest
  cases f with
  | array items =>
    obtain ⟨-, rfl⟩ := nextEntry_array h
    exact ⟨w, hrest, leads_space hw⟩
  | object members key =>
    obtain ⟨t, key', ht, -, hskip⟩ := nextEntry_object h
    refine ⟨w ++ t, ?_, (leads_space hw).append (leads_keyText ht)⟩
    rw [List.append_assoc, ← hskip]
    exact hrest

theorem leads_of_attach (count : Nat) {room room' : Nat} {stack stack' : List Frame} {v : Value}
    {input rest : Text} (h : attach room stack v input = .ok (.next room' stack' rest)) :
    ∃ taken, input = taken ++ rest ∧ Leads count stack.length taken stack'.length := by
  induction stack generalizing room v input with
  | nil => simp [attach] at h
  | cons f stack ih =>
    unfold attach at h
    split at h
    · simp at h
    · rename_i c rest₁ hskip
      obtain ⟨w, hw, rfl⟩ := exists_space_of_skipSpace hskip
      split at h
      · rename_i hcomma
        obtain rfl := CodePoint.is_iff.mp hcomma
        split at h
        · simp at h
        · split at h
          · simp at h
          · rename_i f' rest₂ hnext
            simp only [Except.ok.injEq, Attached.next.injEq] at h
            obtain ⟨-, rfl, rfl⟩ := h
            obtain ⟨taken, rfl, htaken⟩ := leads_of_nextEntry hnext
            exact ⟨w ++ CodePoint.ofChar ',' :: taken, by simp, leads_cons (by decide) (leads_space hw) htaken⟩
      · split at h
        · rename_i hcloser
          obtain rfl := CodePoint.is_iff.mp hcloser
          obtain ⟨taken, rfl, htaken⟩ := ih h
          refine ⟨w ++ [CodePoint.ofChar f.bracket.closer] ++ taken, by simp, ?_⟩
          exact ((leads_space hw).append (leads_closer f.bracket)).append htaken
        · simp at h

/-! ### Runs in lock-step -/

def Attached.addRoom (extra : Nat) : Attached → Attached
  | .next room stack rest => .next (room + extra) stack rest
  | .done v rest => .done v rest

theorem attach_more_room (room extra : Nat) (stack : List Frame) (v : Value) (input : Text) :
    attach (room + extra) stack v input = (attach room stack v input).map (Attached.addRoom extra) := by
  induction stack generalizing room v input with
  | nil => rfl
  | cons f stack ih =>
    unfold attach
    split
    · rfl
    · split
      · split
        · rfl
        · split <;> rfl
      · split
        · rw [Nat.add_right_comm]
          exact ih (room + 1) _ _
        · rfl

/-- More room makes a difference only to a bracket for which there was none. -/
theorem beginValue_more_room (limit limit' room extra : Nat) (input : Text) :
    beginValue limit' (room + extra) input = beginValue limit room input
      ∨ room = 0 ∧ ∃ w c rest, Space w ∧ isOpener c = true ∧ input = w ++ c :: rest
        ∧ beginValue limit room input = .error ⟨.tooDeep limit, c :: rest⟩ := by
  unfold beginValue
  split
  · exact .inl rfl
  · rename_i c rest hskip
    obtain ⟨w, hw, rfl⟩ := exists_space_of_skipSpace hskip
    by_cases hopener : (c.is '[' || c.is '\x7b') = true
    · by_cases hroom : room = 0
      · exact .inr ⟨hroom, w, c, rest, hw, hopener, rfl, by rw [if_pos hopener, if_pos hroom]⟩
      · left
        rw [if_pos hopener, if_pos hopener, if_neg hroom, if_neg (by omega)]
    · left
      rw [if_neg hopener, if_neg hopener]

theorem beginValue_more_room_of_ok {limit room : Nat} {input : Text} {b : Begun} (limit' extra : Nat)
    (h : beginValue limit room input = .ok b) : beginValue limit' (room + extra) input = .ok b := by
  rcases beginValue_more_room limit limit' room extra input with heq | ⟨-, w, c, rest, -, -, -, hdeep⟩
  · exact heq.trans h
  · rw [h] at hdeep
    simp at hdeep

/-- With more room the run is the same, unless it stopped for want of room: then at the first bracket with
the whole limit open. -/
theorem readValue_more_room {limit room : Nat} {stack : List Frame} (input : Text) (limit' extra : Nat)
    (hstack : Fits room stack) (hsum : room + stack.length = limit) :
    readValue limit' (room + extra) stack input = readValue limit room stack input
      ∨ ∃ taken c rest, input = taken ++ c :: rest ∧ isOpener c = true
        ∧ Leads limit stack.length taken limit
        ∧ readValue limit room stack input = .error ⟨.tooDeep limit, c :: rest⟩ := by
  fun_induction readValue limit room stack input with
  | case1 room stack input e hbegin =>
    rcases beginValue_more_room limit limit' room extra input with heq | ⟨rfl, w, c, rest, hw, hc, rfl, hdeep⟩
    · exact .inl (readValue_of_error (heq.trans hbegin))
    · rw [hbegin] at hdeep
      obtain rfl := Except.error.inj hdeep
      rw [Nat.zero_add] at hsum
      exact .inr ⟨w, c, rest, rfl, hc, by rw [hsum]; exact leads_space hw, rfl⟩
  | case2 room stack input f rest hbegin ih =>
    rw [readValue_of_opened (beginValue_more_room_of_ok limit' extra hbegin)]
    obtain ⟨w, s, hw, hopens, hroom, rfl⟩ := opens_of_beginValue hbegin
    have hf : f.depth = 0 := by cases hopens <;> rfl
    have hfits : Fits (room - 1) (f :: stack) := by
      refine ⟨by omega, ?_⟩
      rwa [Nat.sub_one_add_one hroom]
    rw [show room + extra - 1 = room - 1 + extra by omega]
    apply (ih hfits (by rw [List.length_cons]; omega)).imp_right
    rintro ⟨taken, c, rest', rfl, hc, htaken, hdeep⟩
    refine ⟨w ++ s ++ taken, c, rest', by simp, hc, ?_, hdeep⟩
    exact ((leads_space hw).append (leads_of_opens hopens (by omega))).append htaken
  | case3 room stack input v rest hbegin e hattach =>
    left
    rw [readValue_of_finished (beginValue_more_room_of_ok limit' extra hbegin), resume, attach_more_room, hattach]
    rfl
  | case4 room stack input v rest hbegin room' stack' rest' hattach ih =>
    have hrun : readValue limit' (room + extra) stack input = readValue limit' (room' + extra) stack' rest' := by
      rw [readValue_of_finished (beginValue_more_room_of_ok limit' extra hbegin), resume, attach_more_room, hattach]
      rfl
    rw [hrun]
    obtain ⟨w, t, hw, ht, hv, rfl⟩ := denotes_of_beginValue hbegin
    obtain ⟨hfits, hsum'⟩ := fits_attach hstack hv hattach
    apply (ih hfits (by omega)).imp_right
    rintro ⟨taken', c, rest'', rfl, hc, htaken', hdeep⟩
    obtain ⟨taken, rfl, htaken⟩ := leads_of_attach limit hattach
    have hvalue : Leads limit stack.length t stack.length := leads_of_denotes ht (by omega)
    refine ⟨w ++ t ++ taken ++ taken', c, rest'', by simp, hc, ?_, hdeep⟩
    exact (((leads_space hw).append hvalue).append htaken).append htaken'
  | case5 room stack input v rest hbegin v' rest' hattach =>
    left
    rw [readValue_of_finished (beginValue_more_room_of_ok limit' extra hbegin), resume, attach_more_room, hattach]
    rfl

theorem readDocument_more_room {limit limit' : Nat} (hle : limit ≤ limit') (t : Text) :
    readDocument limit' t = readDocument limit t
      ∨ ∃ before c rest, t = before ++ c :: rest ∧ FirstOpens limit t before.length
        ∧ readDocument limit t = .error ⟨.tooDeep limit, c :: rest⟩ := by
  obtain ⟨extra, rfl⟩ := Nat.exists_eq_add_of_le hle
  have hfits : Fits limit [] := trivial
  have hrun := readValue_more_room (skipMark t) (limit + extra) extra hfits (Nat.add_zero limit)
  rcases hrun with heq | ⟨taken, c, rest, htaken, hc, hleads, hdeep⟩
  · left
    rw [readDocument, readDocument, heq]
  · obtain ⟨mark, hmark, ht⟩ := exists_mark t
    have hbegin : Leads limit 0 mark 0 := by
      rcases hmark with rfl | rfl
      · exact .nil _
      · exact leads_plain (by decide)
    have hsplit : t = mark ++ taken ++ c :: rest := by
      rw [ht, htaken, List.append_assoc]
    refine .inr ⟨mark ++ taken, c, rest, hsplit, ?_, ?_⟩
    · rw [hsplit]
      exact firstOpens_of_passes (hbegin.append hleads) hc
    · rw [readDocument, hdeep]

end Syntax

/-! ### Documents under two limits -/

theorem parse_more_room {t : Text} (ht : t.SurrogateFree) {limit limit' : Nat} (hle : limit ≤ limit') :
    parse limit' (.text t) = parse limit (.text t)
      ∨ ∃ offset, Syntax.FirstOpens limit t offset
        ∧ parse limit (.text t) = .error (.malformed (.behind (.tooDeep limit) offset (t.take offset))) := by
  rw [parse_text_eq ht, parse_text_eq ht]
  rcases Syntax.readDocument_more_room hle t with heq | ⟨before, c, rest, rfl, hfirst, hdeep⟩
  · exact .inl (by rw [heq])
  · refine .inr ⟨before.length, hfirst, ?_⟩
    rw [hdeep, List.take_left]
    exact congrArg (fun e => Except.error (Problem.malformed e)) (ParseError.ofFailure_append before ⟨_, c :: rest⟩)

/-- The nesting limit only refuses documents for their depth: under a larger limit the outcome is the same
unless the smaller one was exceeded, and of the documents that the larger limit accepts the smaller one
accepts those within its depth and refuses the others at the first bracket that would exceed it. -/
theorem parse_text_limit_only_guards_depth (t : Text) (ht : t.SurrogateFree) (m m' : Nat) (hle : m ≤ m') :
    ((∀ e, parse m (.text t) = .error (.malformed e) → e.fault.code ≠ .tooDeep) →
      parse m' (.text t) = parse m (.text t))
    ∧ ∀ v, parse m' (.text t) = .ok v →
      (v.depth ≤ m → parse m (.text t) = .ok v)
      ∧ (m < v.depth → ∃ offset, Syntax.FirstOpens m t offset
        ∧ parse m (.text t) = .error (.malformed (.behind (.tooDeep m) offset (t.take offset)))) := by
  have hroom := parse_more_room ht hle
  refine ⟨?_, ?_⟩
  · intro hshallow
    rcases hroom with heq | ⟨offset, -, hdeep⟩
    · exact heq
    · exact absurd rfl (hshallow _ hdeep)
  · intro v hv
    obtain ⟨t', hdecode, hdocument, -⟩ := parse_eq_ok_iff.mp hv
    refine ⟨fun hdepth => parse_eq_ok_iff.mpr ⟨t', hdecode, hdocument, hdepth⟩, ?_⟩
    intro hdeeper
    rcases hroom with heq | hdeep
    · have hdepth := depth_le_of_parse (heq.symm.trans hv)
      omega
    · exact hdeep

/-- Three containers, the third opened behind a bracket inside a string that does not count. -/
theorem parse_text_limit_only_guards_depth_two :
    let v : Value := .array [.string (Text.ofString "["), .array [.array []]]
    let t : Text := Text.ofString "[\"[\",[[]]]"
    t.SurrogateFree ∧ 2 ≤ 3 ∧ parse 3 (.text t) = .ok v ∧ v.depth = 3
      ∧ parse 2 (.text t) = .error (.malformed ⟨.tooDeep 2, 6, 1, 7⟩) := by
  intro v t
  have ht : t.SurrogateFree := by decide
  have hfree : Text.SurrogateFree (Text.ofString "[") := by decide
  have hv : v.WellFormed := ⟨hfree, ⟨trivial, trivial⟩, trivial⟩
  have hdocument := Layout.document_documentShape .compact hv
  rw [Layout.shownNumber_verbatim rfl, Value.mapNumbers_id] at hdocument
  have hparse : parse 3 (.text t) = .ok v :=
    parse_eq_ok_iff.mpr ⟨t, Source.decode_text ht, hdocument, by decide⟩
  obtain ⟨offset, hfirst, hdeep⟩ :=
    ((parse_text_limit_only_guards_depth t ht 2 3 (by decide)).2 v hparse).2 (by decide)
  have hsix : Syntax.FirstOpens 2 t 6 := by decide
  rw [hfirst.unique hsix] at hdeep
  exact ⟨ht, by decide, hparse, by decide, hdeep⟩

end CanonJson
