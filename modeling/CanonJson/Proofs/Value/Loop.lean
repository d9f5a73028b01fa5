import CanonJson.Proofs.Order.Arranged
import CanonJson.Proofs.Plain.Meaning
/-!
# The walk round by round

The tasks of a walk are the entries of a stack: a node and a mark that says whether its children have been put
on the stack already. Here the walk is taken apart into rounds, one entry each (`finish_eq_next`), and every
state that the rounds pass is looked at, not only the last one. What carries through is a statement about all that
still waits (`Ends`): the recursion can finish the entries one by one, and under the mark of a container lie the
results of its children, in their order, before anything else. One round keeps that, so whenever a container is
closed, as many results as it has children are there, and they are those of its children.
-/

namespace CanonJson

namespace Algebra

variable {ε α : Type}

/-- A node on the stack, and whether its children have been put on the stack already. -/
structure Entry where
  node : Value
  expanded : Bool

def Entry.task : Entry → Task
  | ⟨.array items, true⟩ => .closeArray items.length
  | ⟨.object members, true⟩ => .closeObject (members.map Prod.fst)
  | ⟨v, _⟩ => .visit v

/-- Nodes that nothing has been done about. -/
def untouched (vs : List Value) : List Entry :=
  vs.map (Entry.mk · false)

/-- A walk between two rounds: the stack, its top first, and the finished results, newest first. -/
structure Loop (α : Type) where
  stack : List Entry
  results : List α

namespace Loop

def start (v : Value) : Loop α :=
  ⟨[⟨v, false⟩], []⟩

/-- The walk after its next round; none if the stack is empty. -/
def next (alg : Algebra ε α) : Loop α → Except ε (Option (Loop α))
  | ⟨[], _⟩ => .ok none
  | ⟨⟨.array items, false⟩ :: stack, results⟩ =>
    .ok (some ⟨untouched items ++ ⟨.array items, true⟩ :: stack, results⟩)
  | ⟨⟨.array items, true⟩ :: stack, results⟩ =>
    (alg.array (takeLast results items.length).1).map fun a => some ⟨stack, a :: (takeLast results items.length).2⟩
  | ⟨⟨.object members, false⟩ :: stack, results⟩ =>
    .ok (some ⟨untouched (members.map Prod.snd) ++ ⟨.object members, true⟩ :: stack, results⟩)
  | ⟨⟨.object members, true⟩ :: stack, results⟩ =>
    (alg.object ((members.map Prod.fst).zip (takeLast results members.length).1)).map fun a =>
      some ⟨stack, a :: (takeLast results members.length).2⟩
  | ⟨⟨v, _⟩ :: stack, results⟩ => (alg.leaf v).map fun a => some ⟨stack, a :: results⟩

def finish (alg : Algebra ε α) (s : Loop α) : Except ε (List α) :=
  alg.run (s.stack.map Entry.task) s.results

/-- The states that a walk passes. -/
inductive Reached (alg : Algebra ε α) (s : Loop α) : Loop α → Prop where
  | start : Reached alg s s
  | round {t u : Loop α} (h : Reached alg s t) (hnext : t.next alg = .ok (some u)) : Reached alg s u

/-! ### Rounds are tasks -/

section Rounds

variable {alg : Algebra ε α}

theorem task_untouched (v : Value) : Entry.task ⟨v, false⟩ = .visit v := by
  cases v <;> rfl

theorem map_task_items (items : List Value) (stack : List Entry) :
    (untouched items ++ ⟨.array items, true⟩ :: stack).map Entry.task = arrayTasks items ++ stack.map Entry.task := by
  have hvisits : (untouched items).map Entry.task = items.map .visit := by
    rw [untouched, List.map_map]
    exact List.map_congr_left fun v _ => task_untouched v
  rw [arrayTasks, List.map_append, hvisits, List.append_assoc]
  rfl

theorem map_task_members (members : List (Text × Value)) (stack : List Entry) :
    (untouched (members.map Prod.snd) ++ ⟨.object members, true⟩ :: stack).map Entry.task
      = objectTasks members ++ stack.map Entry.task := by
  have hvisits : (untouched (members.map Prod.snd)).map Entry.task = members.map fun m => .visit m.2 := by
    rw [untouched, List.map_map, List.map_map]
    exact List.map_congr_left fun m _ => task_untouched m.2
  rw [objectTasks, List.map_append, hvisits, List.append_assoc]
  rfl

/-- The walk goes on as the rounds say. -/
theorem finish_eq_next (s : Loop α) :
    s.finish alg = s.next alg >>= fun t => t.elim (.ok s.results) fun u => u.finish alg := by
  obtain ⟨stack, results⟩ := s
  cases stack with
  | nil => simp [finish, next, run]
  | cons entry stack =>
    obtain ⟨v, expanded⟩ := entry
    cases v with
    | array items =>
      cases expanded with
      | false =>
        rw [finish, List.map_cons, task_untouched, run, ← map_task_items]
        rfl
      | true =>
        rw [finish, List.map_cons, Entry.task, run, next]
        cases alg.array (takeLast results items.length).1 <;> rfl
    | object members =>
      cases expanded with
      | false =>
        rw [finish, List.map_cons, task_untouched, run, ← map_task_members]
        rfl
      | true =>
        rw [finish, List.map_cons, Entry.task, run, List.length_map, next]
        cases alg.object ((members.map Prod.fst).zip (takeLast results members.length).1) <;> rfl
    | _ =>
      simp only [finish, List.map_cons, Entry.task, run, next]
      cases alg.leaf _ <;> rfl

def work (s : Loop α) : Nat :=
  tasksWeight (s.stack.map Entry.task)

/-- Putting the children of a container on the stack leaves less to do than the container itself, and any other
round takes an entry away. -/
theorem work_lt_of_next {s t : Loop α} (h : s.next alg = .ok (some t)) : t.work < s.work := by
  have hsmaller : ∀ (x : Entry) (inner : List Task) (stack : List Entry), tasksWeight inner < x.task.weight →
      tasksWeight (inner ++ stack.map Entry.task) < tasksWeight ((x :: stack).map Entry.task) := by
    intro x inner stack hinner
    rw [tasksWeight_append, List.map_cons, tasksWeight]
    omega
  have htaken : ∀ (x : Entry) (stack : List Entry),
      tasksWeight (stack.map Entry.task) < tasksWeight ((x :: stack).map Entry.task) := by
    intro x stack
    refine hsmaller x [] stack ?_
    cases htask : x.task with
    | visit v => exact v.weight_pos
    | closeArray count => exact Nat.zero_lt_one
    | closeObject keys => exact Nat.zero_lt_one
  fun_cases next alg s with
  | case1 => cases h
  | case2 items stack results =>
    obtain rfl := Option.some.inj (Except.ok.inj h)
    rw [work, work, map_task_items]
    exact hsmaller ⟨.array items, false⟩ _ stack (tasksWeight_arrayTasks_lt items)
  | case3 items stack results =>
    obtain ⟨a, -, ha⟩ := map_eq_ok_iff.mp h
    obtain rfl := Option.some.inj ha
    exact htaken ⟨.array items, true⟩ stack
  | case4 members stack results =>
    obtain rfl := Option.some.inj (Except.ok.inj h)
    rw [work, work, map_task_members]
    exact hsmaller ⟨.object members, false⟩ _ stack (tasksWeight_objectTasks_lt members)
  | case5 members stack results =>
    obtain ⟨a, -, ha⟩ := map_eq_ok_iff.mp h
    obtain rfl := Option.some.inj ha
    exact htaken ⟨.object members, true⟩ stack
  | case6 v expanded stack results harray hdone hobject hclosed =>
    have hleaf : (alg.leaf v).map (fun a => some ⟨stack, a :: results⟩) = .ok (some t) := by
      rw [← h, next] <;> assumption
    obtain ⟨a, -, ha⟩ := map_eq_ok_iff.mp hleaf
    obtain rfl := Option.some.inj ha
    exact htaken ⟨v, expanded⟩ stack

end Rounds

/-! ### What waits can be finished -/

/-- The recursion finishes the entries of a stack one by one with one result, and each container whose children
are done finds their results on top. -/
inductive Ends (alg : Algebra ε α) (r : α) : List Entry → List α → Prop where
  | nil : Ends alg r [] [r]
  | visit {v : Value} {a : α} {stack : List Entry} {results : List α} (ha : alg.fold v = .ok a)
      (h : Ends alg r stack (a :: results)) : Ends alg r (⟨v, false⟩ :: stack) results
  | array {items : List Value} {as : List α} {a : α} {stack : List Entry} {results : List α}
      (hitems : alg.foldItems items = .ok as) (ha : alg.array as = .ok a) (h : Ends alg r stack (a :: results)) :
      Ends alg r (⟨.array items, true⟩ :: stack) (as.reverse ++ results)
  | object {members : List (Text × Value)} {as : List (Text × α)} {a : α} {stack : List Entry} {results : List α}
      (hmembers : alg.foldMembers members = .ok as) (ha : alg.object as = .ok a)
      (h : Ends alg r stack (a :: results)) :
      Ends alg r (⟨.object members, true⟩ :: stack) ((as.map Prod.snd).reverse ++ results)

section Ends

variable {alg : Algebra ε α} {r : α} {stack : List Entry} {results : List α}

theorem Ends.untouched {items : List Value} {as : List α} (hitems : alg.foldItems items = .ok as)
    (h : Ends alg r stack (as.reverse ++ results)) : Ends alg r (untouched items ++ stack) results := by
  induction items generalizing as results with
  | nil =>
    obtain rfl := Except.ok.inj hitems
    exact h
  | cons v items ih =>
    rw [foldItems] at hitems
    obtain ⟨a, ha, hitems⟩ := bind_eq_ok_iff.mp hitems
    obtain ⟨as', has, hitems⟩ := bind_eq_ok_iff.mp hitems
    obtain rfl := Except.ok.inj hitems
    rw [List.reverse_cons, List.append_assoc, List.singleton_append] at h
    exact .visit ha (ih has h)

theorem foldItems_values {members : List (Text × Value)} {as : List (Text × α)}
    (h : alg.foldMembers members = .ok as) : alg.foldItems (members.map Prod.snd) = .ok (as.map Prod.snd) := by
  rw [foldMembers_eq] at h
  obtain ⟨values, hvalues, rfl⟩ := map_eq_ok_iff.mp h
  have hlength : values.length = (members.map Prod.fst).length := by
    rw [length_foldItems alg hvalues, List.length_map, List.length_map]
  rw [List.map_snd_zip (Nat.le_of_eq hlength), hvalues]

theorem takeLast_items {items : List Value} {as : List α} (h : alg.foldItems items = .ok as) (results : List α) :
    takeLast (as.reverse ++ results) items.length = (as, results) := by
  rw [← length_foldItems alg h]
  exact takeLast_reverse_append as results

theorem takeLast_members {members : List (Text × Value)} {as : List (Text × α)}
    (h : alg.foldMembers members = .ok as) (results : List α) :
    takeLast ((as.map Prod.snd).reverse ++ results) members.length = (as.map Prod.snd, results)
      ∧ (members.map Prod.fst).zip (as.map Prod.snd) = as := by
  constructor
  · have htake := takeLast_items (foldItems_values h) results
    rwa [List.length_map] at htake
  · rw [← keys_foldMembers alg h]
    exact (List.zip_of_prod rfl rfl).symm

/-- One round leaves what waits finishable. -/
theorem Ends.next {s : Loop α} (h : Ends alg r s.stack s.results) :
    s = ⟨[], [r]⟩ ∨ ∃ t, s.next alg = .ok (some t) ∧ Ends alg r t.stack t.results := by
  obtain ⟨stack, results⟩ := s
  cases h with
  | nil => exact .inl rfl
  | @visit v a stack results ha h =>
    refine .inr ?_
    -- An open container gives way to its children in front of its mark.
    cases v with
    | array items =>
      obtain ⟨as, has, ha⟩ := bind_eq_ok_iff.mp ha
      exact ⟨_, rfl, .untouched has (.array has ha h)⟩
    | object members =>
      obtain ⟨as, has, ha⟩ := bind_eq_ok_iff.mp ha
      exact ⟨_, rfl, .untouched (foldItems_values has) (.object has ha h)⟩
    | _ => exact ⟨⟨stack, a :: results⟩, map_eq_ok_iff.mpr ⟨a, ha, rfl⟩, h⟩
  | @array items as a stack results hitems ha h =>
    refine .inr ⟨⟨stack, a :: results⟩, ?_, h⟩
    rw [List.append_eq, Loop.next, takeLast_items hitems, ha]
    rfl
  | @object members as a stack results hmembers ha h =>
    obtain ⟨htake, hzip⟩ := takeLast_members hmembers results
    refine .inr ⟨⟨stack, a :: results⟩, ?_, h⟩
    rw [List.append_eq, Loop.next, htake, hzip, ha]
    rfl

/-- What waits can be finished in every state that the walk passes. -/
theorem Ends.reached {s t : Loop α} (hs : Ends alg r s.stack s.results) (h : Reached alg s t) :
    Ends alg r t.stack t.results := by
  induction h with
  | start => exact hs
  | round _ hnext ih =>
    rcases ih.next with rfl | ⟨u, hu, hends⟩
    · cases hnext
    · rw [hnext] at hu
      obtain rfl := Option.some.inj (Except.ok.inj hu)
      exact hends

theorem Ends.reached_last {s t : Loop α} (hends : Ends alg r t.stack t.results) (h : Reached alg s t) :
    Reached alg s ⟨[], [r]⟩ := by
  -- The stack grows and shrinks, so the induction is on the work that is left.
  induction hwork : t.work using Nat.strongRecOn generalizing t with
  | ind n ih =>
    subst hwork
    rcases hends.next with rfl | ⟨u, hu, hends⟩
    · exact h
    · exact ih u.work (work_lt_of_next hu) hends (.round h hu) rfl

theorem Ends.finish_eq {s : Loop α} (hends : Ends alg r s.stack s.results) : s.finish alg = .ok [r] := by
  induction hwork : s.work using Nat.strongRecOn generalizing s with
  | ind n ih =>
    subst hwork
    rw [finish_eq_next]
    rcases hends.next with rfl | ⟨u, hu, hends⟩
    · rfl
    · rw [hu]
      exact ih u.work (work_lt_of_next hu) hends rfl

/-- The results of an array's items lie on top when the array is closed. -/
theorem Ends.items {items : List Value} (h : Ends alg r (⟨.array items, true⟩ :: stack) results) :
    items.length ≤ results.length ∧ alg.foldItems items = .ok (takeLast results items.length).1 := by
  cases h with
  | @array items as a stack results hitems ha h =>
    rw [takeLast_items hitems, List.length_append, List.length_reverse, length_foldItems alg hitems]
    exact ⟨Nat.le_add_right .., hitems⟩

theorem Ends.members {members : List (Text × Value)}
    (h : Ends alg r (⟨.object members, true⟩ :: stack) results) :
    members.length ≤ results.length
      ∧ alg.foldItems (members.map Prod.snd) = .ok (takeLast results members.length).1 := by
  cases h with
  | @object members as a stack results hmembers ha h =>
    have hvalues := foldItems_values hmembers
    have hlength : (as.map Prod.snd).length = members.length :=
      (length_foldItems alg hvalues).trans (List.length_map _)
    rw [(takeLast_members hmembers results).1, List.length_append, List.length_reverse, hlength]
    exact ⟨Nat.le_add_right .., hvalues⟩

end Ends

/-! ### Whole walks -/

/-- The walk of a tree does what the recursion does: it comes to its end with the result of the recursion and no
other, it does not stop before, and whenever it closes a container it has as many results as the container has
children and takes those of the children, in their order. -/
structure Follows (alg : Algebra ε α) (v : Value) (r : α) : Prop where
  fold : alg.fold v = .ok r
  walk : alg.walk v = .ok r
  ends : Reached alg (start v) ⟨[], [r]⟩
  goesOn (s : Loop α) (h : Reached alg (start v) s) : s = ⟨[], [r]⟩ ∨ ∃ t, s.next alg = .ok (some t)
  finish (s : Loop α) (h : Reached alg (start v) s) : s.finish alg = .ok [r]
  array (items : List Value) (stack : List Entry) (results : List α)
      (h : Reached alg (start v) ⟨⟨.array items, true⟩ :: stack, results⟩) :
    items.length ≤ results.length ∧ alg.foldItems items = .ok (takeLast results items.length).1
  object (members : List (Text × Value)) (stack : List Entry) (results : List α)
      (h : Reached alg (start v) ⟨⟨.object members, true⟩ :: stack, results⟩) :
    members.length ≤ results.length
      ∧ alg.foldItems (members.map Prod.snd) = .ok (takeLast results members.length).1

theorem follows_of_fold {alg : Algebra ε α} {v : Value} {r : α} (h : alg.fold v = .ok r) : Follows alg v r := by
  have hstart : Ends alg r (start v : Loop α).stack (start v : Loop α).results := .visit h .nil
  have hends : ∀ s, Reached alg (start v) s → Ends alg r s.stack s.results := fun s hs => hstart.reached hs
  refine ⟨h, (walk_eq_fold alg v).trans h, hstart.reached_last .start, ?_, ?_, ?_, ?_⟩
  · intro s hs
    rcases (hends s hs).next with hlast | ⟨t, ht, -⟩
    · exact .inl hlast
    · exact .inr ⟨t, ht⟩
  · intro s hs
    exact (hends s hs).finish_eq
  · intro items stack results hs
    exact (hends _ hs).items
  · intro members stack results hs
    exact (hends _ hs).members

end Loop

end Algebra

open Value (Occurs numberDatum plainAlgebra)

/-- Putting a well-formed tree into canonical order, under any options, and converting it to plain data, if its numbers
convert, are walks that do what the recursion does. -/
theorem walks_follow_recursion (o : SortOptions) (v : Value) (hv : v.WellFormed) :
    (∃ u, canonicalize o v = .ok u ∧ Algebra.Loop.Follows (canonicalAlgebra o) v u)
    ∧ ((∀ t, Occurs (.number t) v → ∃ d, numberDatum t = .ok d) →
        ∃ d, v.toDatum = .ok d ∧ Algebra.Loop.Follows plainAlgebra v d) := by
  constructor
  · have hcanonical := canonicalize_eq_ok o hv
    refine ⟨arranged o v, hcanonical, Algebra.Loop.follows_of_fold ?_⟩
    rwa [canonicalize, Algebra.walk_eq_fold] at hcanonical
  · intro hnumbers
    obtain ⟨d, hd⟩ := Value.convertible_of_numbers (fun d hd => hv.of_occurs hd) hnumbers
    refine ⟨d, hd, Algebra.Loop.follows_of_fold ?_⟩
    rwa [Value.toDatum, Algebra.walk_eq_fold] at hd

/-- Empty containers stand among others, on both levels, and one of the keys has to move. -/
theorem walks_follow_recursion_nested :
    let a : Text := Text.ofChars ['a']
    let b : Text := Text.ofChars ['b']
    let half : Text := Text.ofChars ['0', '.', '5']
    let v : Value := .array [.object [(b, .array []), (a, .number half)], .array [], .object []]
    let o : SortOptions := ⟨true, .codePoint, some a⟩
    v.WellFormed ∧ (∀ t, Occurs (.number t) v → ∃ d, numberDatum t = .ok d)
      ∧ (∃ u, canonicalize o v = .ok u ∧ Algebra.Loop.Follows (canonicalAlgebra o) v u)
      ∧ ∃ d, v.toDatum = .ok d ∧ Algebra.Loop.Follows plainAlgebra v d := by
  intro a b half v o
  have ha : a.SurrogateFree := by decide
  have hb : b.SurrogateFree := by decide
  have hhalf : isNumeral half = true := by decide
  have hv : v.WellFormed := ⟨⟨hb, trivial, ha, hhalf, trivial⟩, trivial, trivial, trivial⟩
  have hnumbers : ∀ t, Occurs (.number t) v → ∃ d, numberDatum t = .ok d := by
    intro t ht
    change Occurs (.number t) (.array [.object [(b, .array []), (a, .number half)], .array [], .object []]) at ht
    obtain _ | ⟨hitem, ht⟩ := ht
    simp only [List.mem_cons, List.not_mem_nil, or_false] at hitem
    rcases hitem with rfl | rfl | rfl
    · obtain _ | _ | ⟨hm, ht⟩ := ht
      simp only [List.mem_cons, List.not_mem_nil, or_false] at hm
      rcases hm with rfl | rfl
      · obtain _ | ⟨hitem, -⟩ := ht
        cases hitem
      · cases ht
        exact ⟨_, rfl⟩
    · obtain _ | ⟨hitem, -⟩ := ht
      cases hitem
    · obtain _ | _ | ⟨hm, -⟩ := ht
      cases hm
  obtain ⟨hcanonical, hplain⟩ := walks_follow_recursion o v hv
  exact ⟨hv, hnumbers, hcanonical, hplain hnumbers⟩

end CanonJson
