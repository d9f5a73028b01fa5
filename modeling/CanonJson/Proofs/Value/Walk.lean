import CanonJson.Proofs.Outcome
import CanonJson.Proofs.Value.Tree
import CanonJson.Value.Walk
/-!
# The walk is the recursion

Carrying out the tasks of a node does what the recursion does: it fails with the same problem, or leaves
exactly one more result and goes on with the tasks behind it. When a container is closed, the results on
top are those of its children, in their order, so `takeLast` takes these and nothing else.
-/

namespace CanonJson.Algebra

variable {ε α : Type} (alg : Algebra ε α)

/-! ### As many results as children -/

theorem length_foldItems {items : List Value} {as : List α} (h : alg.foldItems items = .ok as) :
    as.length = items.length := by
  induction items generalizing as with
  | nil =>
    obtain rfl := Except.ok.inj h
    rfl
  | cons v vs ih =>
    rw [foldItems] at h
    obtain ⟨a, -, h⟩ := bind_eq_ok_iff.mp h
    obtain ⟨as', hvs, h⟩ := bind_eq_ok_iff.mp h
    obtain rfl := Except.ok.inj h
    rw [List.length_cons, List.length_cons, ih hvs]

theorem keys_foldMembers {members : List (Text × Value)} {as : List (Text × α)}
    (h : alg.foldMembers members = .ok as) : as.map Prod.fst = members.map Prod.fst := by
  induction members generalizing as with
  | nil =>
    obtain rfl := Except.ok.inj h
    rfl
  | cons m ms ih =>
    rw [foldMembers] at h
    obtain ⟨a, -, h⟩ := bind_eq_ok_iff.mp h
    obtain ⟨as', hms, h⟩ := bind_eq_ok_iff.mp h
    obtain rfl := Except.ok.inj h
    rw [List.map_cons, List.map_cons, ih hms]

/-- The members of an object are dealt with as the items of an array are, and keep their keys. -/
theorem foldMembers_eq (members : List (Text × Value)) :
    alg.foldMembers members
      = (alg.foldItems (members.map Prod.snd)).map fun as => (members.map Prod.fst).zip as := by
  induction members with
  | nil => rfl
  | cons m ms ih =>
    simp only [foldMembers, ih, List.map_cons, foldItems]
    cases alg.fold m.2 with
    | error e => rfl
    | ok a => cases alg.foldItems (ms.map Prod.snd) <;> rfl

theorem takeLast_reverse_append (as results : List α) :
    takeLast (as.reverse ++ results) as.length = (as, results) := by
  rw [takeLast, ← List.length_reverse, List.take_left, List.drop_left, List.reverse_reverse]

/-! ### Children that succeed -/

theorem foldItems_eq_ok {items : List Value} {g : Value → α}
    (h : ∀ v ∈ items, alg.fold v = .ok (g v)) : alg.foldItems items = .ok (items.map g) := by
  induction items with
  | nil => rfl
  | cons v vs ih =>
    obtain ⟨hv, hvs⟩ := List.forall_mem_cons.mp h
    rw [foldItems, hv, ih hvs]
    rfl

theorem foldMembers_eq_ok {members : List (Text × Value)} {g : Value → α}
    (h : ∀ m ∈ members, alg.fold m.2 = .ok (g m.2)) :
    alg.foldMembers members = .ok (members.map fun m => (m.1, g m.2)) := by
  induction members with
  | nil => rfl
  | cons m ms ih =>
    obtain ⟨hm, hms⟩ := List.forall_mem_cons.mp h
    rw [foldMembers, hm, ih hms]
    rfl

theorem fold_of_foldItems {items : List Value} {as : List α} (h : alg.foldItems items = .ok as) :
    ∀ v ∈ items, ∃ a, alg.fold v = .ok a := by
  induction items generalizing as with
  | nil => simp
  | cons v items ih =>
    rw [foldItems] at h
    obtain ⟨a, ha, h⟩ := bind_eq_ok_iff.mp h
    obtain ⟨as', has, -⟩ := bind_eq_ok_iff.mp h
    exact List.forall_mem_cons.mpr ⟨⟨a, ha⟩, ih has⟩

theorem fold_of_foldMembers {members : List (Text × Value)} {as : List (Text × α)}
    (h : alg.foldMembers members = .ok as) : ∀ m ∈ members, ∃ a, alg.fold m.2 = .ok a := by
  induction members generalizing as with
  | nil => simp
  | cons m members ih =>
    rw [foldMembers] at h
    obtain ⟨a, ha, h⟩ := bind_eq_ok_iff.mp h
    obtain ⟨as', has, -⟩ := bind_eq_ok_iff.mp h
    exact List.forall_mem_cons.mpr ⟨⟨a, ha⟩, ih has⟩

/-! ### The tasks of a node -/

/-- The tasks of a tree do what the recursion does, and leave one result. -/
def Visits (v : Value) : Prop :=
  ∀ tasks results, alg.run (.visit v :: tasks) results = alg.fold v >>= fun a => alg.run tasks (a :: results)

theorem run_visits {items : List Value} (h : ∀ v ∈ items, alg.Visits v) (tasks : List Task)
    (results : List α) :
    alg.run (items.map .visit ++ tasks) results
      = alg.foldItems items >>= fun as => alg.run tasks (as.reverse ++ results) := by
  induction items generalizing results with
  | nil => rfl
  | cons v vs ih =>
    obtain ⟨hv, hvs⟩ := List.forall_mem_cons.mp h
    rw [List.map_cons, List.cons_append, hv, foldItems]
    cases alg.fold v with
    | error e => rfl
    | ok a =>
      rw [ok_bind, ok_bind, ih hvs]
      cases alg.foldItems vs with
      | error e => rfl
      | ok as => simp [pure, Except.pure]

theorem run_visit_values {members : List (Text × Value)} (h : ∀ m ∈ members, alg.Visits m.2)
    (tasks : List Task) (results : List α) :
    alg.run (members.map (fun m => .visit m.2) ++ tasks) results
      = alg.foldMembers members >>= fun as => alg.run tasks ((as.map Prod.snd).reverse ++ results) := by
  induction members generalizing results with
  | nil => rfl
  | cons m ms ih =>
    obtain ⟨hm, hms⟩ := List.forall_mem_cons.mp h
    rw [List.map_cons, List.cons_append, hm, foldMembers]
    cases alg.fold m.2 with
    | error e => rfl
    | ok a =>
      rw [ok_bind, ok_bind, ih hms]
      cases alg.foldMembers ms with
      | error e => rfl
      | ok as => simp [pure, Except.pure]

theorem run_closeArray (as : List α) (tasks : List Task) (results : List α) :
    alg.run (.closeArray as.length :: tasks) (as.reverse ++ results)
      = alg.array as >>= fun a => alg.run tasks (a :: results) := by
  rw [run, takeLast_reverse_append]
  cases alg.array as <;> rfl

theorem run_closeObject (as : List (Text × α)) (tasks : List Task) (results : List α) :
    alg.run (.closeObject (as.map Prod.fst) :: tasks) ((as.map Prod.snd).reverse ++ results)
      = alg.object as >>= fun a => alg.run tasks (a :: results) := by
  have htake := takeLast_reverse_append (as.map Prod.snd) results
  have hzip : (as.map Prod.fst).zip (as.map Prod.snd) = as := (List.zip_of_prod rfl rfl).symm
  rw [List.length_map] at htake
  rw [run, List.length_map, htake, hzip]
  cases alg.object as <;> rfl

theorem visits_leaf {v : Value} (harray : ∀ items, v ≠ .array items)
    (hobject : ∀ members, v ≠ .object members) : alg.Visits v := by
  intro tasks results
  have hfold : alg.fold v = alg.leaf v := by
    cases v with
    | array items => exact absurd rfl (harray items)
    | object members => exact absurd rfl (hobject members)
    | _ => rfl
  rw [run, hfold]
  · cases alg.leaf v <;> rfl
  · exact harray
  · exact hobject

theorem visits_array {items : List Value} (h : ∀ v ∈ items, alg.Visits v) :
    alg.Visits (.array items) := by
  intro tasks results
  rw [run, arrayTasks, List.append_assoc, run_visits alg h, fold]
  cases hitems : alg.foldItems items with
  | error e => rfl
  | ok as =>
    -- The results of the items lie on top, and there are as many as the closing task counts.
    rw [ok_bind, ok_bind, List.singleton_append, ← length_foldItems alg hitems, run_closeArray]

theorem visits_object {members : List (Text × Value)} (h : ∀ m ∈ members, alg.Visits m.2) :
    alg.Visits (.object members) := by
  intro tasks results
  rw [run, objectTasks, List.append_assoc, run_visit_values alg h, fold]
  cases hmembers : alg.foldMembers members with
  | error e => rfl
  | ok as =>
    rw [ok_bind, ok_bind, List.singleton_append, ← keys_foldMembers alg hmembers, run_closeObject]

theorem visits (v : Value) : alg.Visits v := by
  induction v using Value.childInduction with
  | null => exact visits_leaf alg (by simp) (by simp)
  | bool b => exact visits_leaf alg (by simp) (by simp)
  | number t => exact visits_leaf alg (by simp) (by simp)
  | string t => exact visits_leaf alg (by simp) (by simp)
  | array items ih => exact visits_array alg ih
  | object members ih => exact visits_object alg ih
  | foreign d => exact visits_leaf alg (by simp) (by simp)

/-- Walking a tree is folding it. -/
theorem walk_eq_fold (v : Value) : alg.walk v = alg.fold v := by
  rw [walk, visits alg v]
  cases alg.fold v with
  | error e => rfl
  | ok a => rw [ok_bind, run]

end CanonJson.Algebra
