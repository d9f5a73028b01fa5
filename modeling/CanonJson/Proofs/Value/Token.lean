import CanonJson.Proofs.Value.Occurs
import CanonJson.Value.Token
/-!
# Token streams determine trees

A container announces how many children it has, so that the end of its stream can be told from the stream
itself: a stream in front of other tokens can be taken off in one way only. Comparing two streams token by
token is therefore comparing two trees, as long as no foreign data take part.
-/

namespace CanonJson

namespace Value

/-! ### Streams by recursion -/

mutual

/-- The tokens of a tree: its node, then its children from left to right. -/
def stream : Value → List Token
  | .null => [.null]
  | .bool b => [.bool b]
  | .number t => [.number t]
  | .string t => [.string t]
  | .array items => .array items.length :: itemsStream items
  | .object members => .object members.length :: membersStream members
  | .foreign d => [.foreign d]

def itemsStream : List Value → List Token
  | [] => []
  | v :: vs => stream v ++ itemsStream vs

def membersStream : List (Text × Value) → List Token
  | [] => []
  | (k, v) :: ms => .key k :: stream v ++ membersStream ms

end

def Pending.stream : Pending → List Token
  | .key k => [.key k]
  | .node v => v.stream

theorem flatMap_pendingItems (items : List Value) :
    (pendingItems items).flatMap Pending.stream = itemsStream items := by
  induction items with
  | nil => rfl
  | cons v vs ih =>
    rw [pendingItems, List.map_cons, List.flatMap_cons, ← pendingItems, ih]
    rfl

theorem flatMap_pendingMembers (members : List (Text × Value)) :
    (pendingMembers members).flatMap Pending.stream = membersStream members := by
  induction members with
  | nil => rfl
  | cons m ms ih =>
    rw [pendingMembers, List.flatMap_cons, ← pendingMembers, List.flatMap_append, ih]
    simp [Pending.stream, membersStream]

theorem flatten_eq (ps : List Pending) (acc : List Token) :
    flatten ps acc = acc.reverse ++ ps.flatMap Pending.stream := by
  fun_induction flatten ps acc with
  | case1 acc => simp
  | case8 acc items ps ih =>
    rw [ih, List.flatMap_append, flatMap_pendingItems]
    simp [Pending.stream, stream]
  | case9 acc members ps ih =>
    rw [ih, List.flatMap_append, flatMap_pendingMembers]
    simp [Pending.stream, stream]
  | _ => simp_all [Pending.stream, stream]

theorem tokens_eq_stream (v : Value) : v.tokens = v.stream := by
  simp [tokens, flatten_eq, Pending.stream]

/-! ### Taking a stream off -/

/-- A tree and what follows it can be told from its stream. -/
def Separable (v : Value) : Prop :=
  ∀ u rest rest', v.stream ++ rest = u.stream ++ rest' → v = u ∧ rest = rest'

theorem itemsStream_append_inj {items items' : List Value} (h : ∀ v ∈ items, v.Separable)
    (hlength : items.length = items'.length) {rest rest' : List Token}
    (hstream : itemsStream items ++ rest = itemsStream items' ++ rest') :
    items = items' ∧ rest = rest' := by
  induction items generalizing items' with
  | nil =>
    obtain rfl := List.length_eq_zero_iff.mp hlength.symm
    exact ⟨rfl, hstream⟩
  | cons v vs ih =>
    cases items' with
    | nil => cases hlength
    | cons u us =>
      rw [itemsStream, itemsStream, List.append_assoc, List.append_assoc] at hstream
      obtain ⟨rfl, hmore⟩ := h v (by simp) u _ _ hstream
      obtain ⟨rfl, hrest⟩ := ih (fun w hw => h w (by simp [hw])) (Nat.succ.inj hlength) hmore
      exact ⟨rfl, hrest⟩

theorem membersStream_append_inj {members members' : List (Text × Value)}
    (h : ∀ m ∈ members, m.2.Separable) (hlength : members.length = members'.length)
    {rest rest' : List Token}
    (hstream : membersStream members ++ rest = membersStream members' ++ rest') :
    members = members' ∧ rest = rest' := by
  induction members generalizing members' with
  | nil =>
    obtain rfl := List.length_eq_zero_iff.mp hlength.symm
    exact ⟨rfl, hstream⟩
  | cons m ms ih =>
    cases members' with
    | nil => cases hlength
    | cons n ns =>
      rw [membersStream, membersStream, List.cons_append, List.cons_append, List.cons_append,
        List.cons_append, List.append_assoc, List.append_assoc, List.cons.injEq, Token.key.injEq] at hstream
      obtain ⟨hkey, hstream⟩ := hstream
      obtain ⟨hvalue, hmore⟩ := h m (by simp) n.2 _ _ hstream
      obtain ⟨rfl, hrest⟩ := ih (fun w hw => h w (by simp [hw])) (Nat.succ.inj hlength) hmore
      rw [show m = n from Prod.ext hkey hvalue]
      exact ⟨rfl, hrest⟩

theorem separable (v : Value) : v.Separable := by
  induction v using childInduction with
  | array items ih =>
    intro u rest rest' h
    cases u with
    | array items' =>
      rw [stream, stream, List.cons_append, List.cons_append, List.cons.injEq, Token.array.injEq] at h
      obtain ⟨rfl, hrest⟩ := itemsStream_append_inj ih h.1 h.2
      exact ⟨rfl, hrest⟩
    | _ => simp [stream] at h
  | object members ih =>
    intro u rest rest' h
    cases u with
    | object members' =>
      rw [stream, stream, List.cons_append, List.cons_append, List.cons.injEq, Token.object.injEq] at h
      obtain ⟨rfl, hrest⟩ := membersStream_append_inj ih h.1 h.2
      exact ⟨rfl, hrest⟩
    | _ => simp [stream] at h
  | _ =>
    intro u rest rest' h
    cases u <;> simp_all [stream]

theorem stream_injective {v u : Value} (h : v.stream = u.stream) : v = u := by
  have happend : v.stream ++ [] = u.stream ++ [] := by rw [h]
  exact (separable v u [] [] happend).1

end Value

/-! ### Comparing streams -/

namespace Token

/-- The token brings in no foreign datum. -/
def Native (t : Token) : Prop :=
  ∀ d, t ≠ .foreign d

theorem same?_of_native {t : Token} (ht : t.Native) (u : Token) :
    ∃ verdict, t.same? u = .ok verdict ∧ (verdict = true ↔ t = u) := by
  cases t with
  | foreign d => exact absurd rfl (ht d)
  | _ =>
    cases u <;> exact ⟨_, rfl, by simp⟩

theorem sameStream?_of_native {ts : List Token} (hts : ∀ t ∈ ts, t.Native) (us : List Token) :
    ∃ verdict, sameStream? ts us = .ok verdict ∧ (verdict = true ↔ ts = us) := by
  induction ts generalizing us with
  | nil =>
    cases us with
    | nil => exact ⟨true, rfl, by simp⟩
    | cons u us => exact ⟨false, rfl, by simp⟩
  | cons t ts ih =>
    cases us with
    | nil => exact ⟨false, rfl, by simp⟩
    | cons u us =>
      obtain ⟨first, hfirst, hiff⟩ := same?_of_native (hts t (by simp)) u
      rw [sameStream?, hfirst]
      cases first with
      | false =>
        have hne : t ≠ u := fun h => Bool.false_ne_true (hiff.mpr h)
        exact ⟨false, rfl, by simp [hne]⟩
      | true =>
        obtain ⟨verdict, hverdict, hmore⟩ := ih (fun w hw => hts w (by simp [hw])) us
        refine ⟨verdict, hverdict, ?_⟩
        rw [hmore, hiff.mp rfl, List.cons.injEq, and_iff_right rfl]

end Token

namespace Value

/-- Every node of the tree is a JSON value. -/
def Native (v : Value) : Prop :=
  ∀ d, ¬ Occurs (.foreign d) v

theorem WellFormed.native {v : Value} (hv : v.WellFormed) : v.Native :=
  fun _ h => hv.of_occurs h

theorem native_of_mem_itemsStream {items : List Value} (h : ∀ v ∈ items, ∀ t ∈ v.stream, t.Native) :
    ∀ t ∈ itemsStream items, t.Native := by
  induction items with
  | nil => simp [itemsStream]
  | cons v vs ih =>
    intro t ht
    rcases List.mem_append.mp ht with ht | ht
    · exact h v (by simp) t ht
    · exact ih (fun u hu => h u (by simp [hu])) t ht

theorem native_of_mem_membersStream {members : List (Text × Value)}
    (h : ∀ m ∈ members, ∀ t ∈ m.2.stream, t.Native) : ∀ t ∈ membersStream members, t.Native := by
  induction members with
  | nil => simp [membersStream]
  | cons m ms ih =>
    intro t ht
    rcases List.mem_append.mp ht with ht | ht
    · rcases List.mem_cons.mp ht with rfl | ht
      · simp [Token.Native]
      · exact h m (by simp) t ht
    · exact ih (fun n hn => h n (by simp [hn])) t ht

theorem Native.of_mem_stream {v : Value} (hv : v.Native) : ∀ t ∈ v.stream, t.Native := by
  induction v using childInduction with
  | array items ih =>
    intro t ht
    rcases List.mem_cons.mp ht with rfl | ht
    · simp [Token.Native]
    · exact native_of_mem_itemsStream (fun u hu => ih u hu fun d h => hv d (.item hu h)) t ht
  | object members ih =>
    intro t ht
    rcases List.mem_cons.mp ht with rfl | ht
    · simp [Token.Native]
    · exact native_of_mem_membersStream (fun m hm => ih m hm fun d h => hv d (.member hm h)) t ht
  | foreign d => exact absurd .self (hv d)
  | _ => simp [stream, Token.Native]

theorem treeEqual?_of_native {v : Value} (hv : v.Native) (u : Value) :
    ∃ verdict, v.treeEqual? u = .ok verdict ∧ (verdict = true ↔ v = u) := by
  obtain ⟨verdict, hverdict, hiff⟩ := Token.sameStream?_of_native hv.of_mem_stream u.stream
  refine ⟨verdict, ?_, hiff.trans ⟨stream_injective, congrArg stream⟩⟩
  rw [treeEqual?, tokens_eq_stream, tokens_eq_stream, hverdict]

/-- Comparing a tree of JSON values with another gives a verdict, which is whether they are the same. -/
theorem equal?_of_native {v : Value} (hv : v.Native) (u : Value) :
    ∃ verdict, v.equal? u = .ok verdict ∧ (verdict = true ↔ v = u) := by
  cases v with
  | array items =>
    cases u with
    | array items' => exact treeEqual?_of_native hv (.array items')
    | _ => exact ⟨false, rfl, by simp⟩
  | object members =>
    cases u with
    | object members' => exact treeEqual?_of_native hv (.object members')
    | _ => exact ⟨false, rfl, by simp⟩
  | foreign d => exact absurd .self (hv d)
  | _ =>
    cases u <;> exact ⟨_, rfl, by simp⟩

end Value

end CanonJson
