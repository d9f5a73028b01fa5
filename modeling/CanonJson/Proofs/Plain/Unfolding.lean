import CanonJson.Proofs.Plain.Walk
import CanonJson.Proofs.Value.Identity
/-!
# What a graph unfolds to

A graph is read as a tree by following its references, what is shared once for each use. `Unfolds` says which
tree that is, and it is at most one: a tree is finite, so an item that unfolds to one holds no container that
holds itself. The walk finds this tree or fails, and every failure has its reason in the graph: a scalar, a key or
a set that is refused, or a container that holds itself. Behind this stands one invariant: the containers that
are open hold the item that is looked at.
-/

namespace CanonJson

/-- Everything that a container holds, the keys of a table included. -/
def Cell.contents {ρ : Type} : Cell ρ → List (Item ρ)
  | .list items => items
  | .tuple items => items
  | .set items => items
  | .table entries => entries.map Prod.fst ++ entries.map Prod.snd

theorem Cell.IsSequence.contents_eq {ρ : Type} {c : Cell ρ} {items : List (Item ρ)} (h : c.IsSequence items) :
    c.contents = items := by
  rcases h with rfl | rfl <;> rfl

theorem Cell.IsSequence.ne_table {ρ : Type} {c : Cell ρ} {items : List (Item ρ)} (h : c.IsSequence items)
    {entries : List (Item ρ × Item ρ)} : c ≠ .table entries := by
  rcases h with rfl | rfl <;> simp

namespace Graph

variable {g : Graph}

/-- The container holds the item itself. -/
def Holds (g : Graph) (i : Fin g.size) (x : Item (Fin g.size)) : Prop :=
  x ∈ (g.cellAt i).contents

/-- The second item is found by following references from the first. -/
inductive Reaches (g : Graph) : Item (Fin g.size) → Item (Fin g.size) → Prop where
  | refl (x : Item (Fin g.size)) : Reaches g x x
  | step {i : Fin g.size} {x y : Item (Fin g.size)} (h : g.Holds i x) (rest : Reaches g x y) :
      Reaches g (.cell i) y

/-- The container holds the item, directly or in something that it holds. -/
def Contains (g : Graph) (i : Fin g.size) (y : Item (Fin g.size)) : Prop :=
  ∃ x, g.Holds i x ∧ g.Reaches x y

/-- The item unfolds to the tree: a scalar to its own, a list or a tuple to the array of what its items unfold to, a
table to the object with its keys and what its values unfold to, in their order. -/
inductive Unfolds (g : Graph) : Item (Fin g.size) → Value → Prop where
  | scalar {s : Scalar} {v : Value} (h : s.toValue = .ok v) : Unfolds g (.scalar s) v
  | array {i : Fin g.size} {items : List (Item (Fin g.size))} {vs : List Value}
      (cell : (g.cellAt i).IsSequence items) (length : items.length = vs.length)
      (places : ∀ (k : Nat) x v, items[k]? = some x → vs[k]? = some v → Unfolds g x v) :
      Unfolds g (.cell i) (.array vs)
  | object {i : Fin g.size} {entries : List (Item (Fin g.size) × Item (Fin g.size))} {names : List Text}
      {vs : List Value} (cell : g.cellAt i = .table entries)
      (keys : entries.map Prod.fst = names.map fun t => .scalar (.text t))
      (length : (entries.map Prod.snd).length = vs.length)
      (places : ∀ (k : Nat) x v, (entries.map Prod.snd)[k]? = some x → vs[k]? = some v → Unfolds g x v) :
      Unfolds g (.cell i) (.object (names.zip vs))

/-! ### Following references -/

theorem Reaches.trans {x y z : Item (Fin g.size)} (h : g.Reaches x y) (h' : g.Reaches y z) : g.Reaches x z := by
  induction h with
  | refl x => exact h'
  | step hold _ ih => exact .step hold (ih h')

theorem Contains.trans_reaches {i : Fin g.size} {x y : Item (Fin g.size)} (h : g.Contains i x)
    (h' : g.Reaches x y) : g.Contains i y := by
  obtain ⟨z, hz, hzx⟩ := h
  exact ⟨z, hz, hzx.trans h'⟩

theorem Holds.contains {i : Fin g.size} {x : Item (Fin g.size)} (h : g.Holds i x) : g.Contains i x :=
  ⟨x, h, .refl x⟩

theorem Holds.reaches {i : Fin g.size} {x : Item (Fin g.size)} (h : g.Holds i x) : g.Reaches (.cell i) x :=
  .step h (.refl x)

theorem holds_item {i : Fin g.size} {items : List (Item (Fin g.size))} (h : (g.cellAt i).IsSequence items)
    {x : Item (Fin g.size)} (hx : x ∈ items) : g.Holds i x := by
  rw [Holds, h.contents_eq]
  exact hx

theorem holds_value {i : Fin g.size} {entries : List (Item (Fin g.size) × Item (Fin g.size))}
    (h : g.cellAt i = .table entries) {x : Item (Fin g.size)} (hx : x ∈ entries.map Prod.snd) : g.Holds i x := by
  rw [Holds, h]
  exact List.mem_append_right _ hx

/-! ### One tree -/

theorem keyText_eq_ok_iff {x : Item (Fin g.size)} {t : Text} :
    g.keyText x = .ok t ↔ x = .scalar (.text t) := by
  cases x with
  | cell i => simp [keyText]
  | scalar s => cases s <;> simp [keyText]

theorem weight_lt_array {items : List Value} {v : Value} (h : v ∈ items) : v.weight < (Value.array items).weight := by
  rw [Value.weight]
  induction items with
  | nil => cases h
  | cons u items ih =>
    rw [Value.itemsWeight]
    rcases List.mem_cons.mp h with rfl | h
    · omega
    · have := ih h
      omega

theorem weight_lt_object {members : List (Text × Value)} {m : Text × Value} (h : m ∈ members) :
    m.2.weight < (Value.object members).weight := by
  rw [Value.weight]
  induction members with
  | nil => cases h
  | cons n members ih =>
    rw [Value.membersWeight]
    rcases List.mem_cons.mp h with rfl | h
    · omega
    · have := ih h
      omega

theorem eq_of_unique_places {xs : List (Item (Fin g.size))} {vs us : List Value} (hvs : xs.length = vs.length)
    (hus : xs.length = us.length)
    (hunfolds : ∀ (k : Nat) x u, xs[k]? = some x → us[k]? = some u → g.Unfolds x u)
    (ih : ∀ (k : Nat) x v, xs[k]? = some x → vs[k]? = some v → ∀ {u}, g.Unfolds x u → u = v) : us = vs := by
  refine Value.eq_of_places (hus.symm.trans hvs) fun k u v hu hv => ?_
  obtain ⟨x, hx⟩ : ∃ x, xs[k]? = some x := by
    have hk := (List.getElem?_eq_some_iff.mp hv).1
    exact ⟨_, List.getElem?_eq_getElem (hvs ▸ hk)⟩
  exact ih k x v hx hv (hunfolds k x u hx hu)

/-- An item unfolds to one tree at most. -/
theorem Unfolds.unique {x : Item (Fin g.size)} {v u : Value} (h : g.Unfolds x v) (h' : g.Unfolds x u) : u = v := by
  induction h generalizing u with
  | scalar hs =>
    cases h' with
    | scalar hs' => exact Except.ok.inj (hs'.symm.trans hs)
  | @array i items vs hcell hlength _ ih =>
    cases h' with
    | @array _ items' us hcell' hlength' hplaces' =>
      obtain rfl : items' = items := by rw [← hcell.contents_eq, ← hcell'.contents_eq]
      rw [eq_of_unique_places hlength hlength' hplaces' ih]
    | object hcell' => exact absurd hcell' hcell.ne_table
  | @object i entries names vs hcell hkeys hlength _ ih =>
    cases h' with
    | array hcell' => exact absurd hcell hcell'.ne_table
    | @object _ entries' names' us hcell' hkeys' hlength' hplaces' =>
      obtain rfl : entries' = entries := Cell.table.inj (hcell'.symm.trans hcell)
      obtain rfl : names' = names := by
        refine (List.map_inj_right fun t t' h => ?_).mp (hkeys'.symm.trans hkeys)
        exact Scalar.text.inj (Item.scalar.inj h)
      rw [eq_of_unique_places hlength hlength' hplaces' ih]

/-! ### Below an item that unfolds -/

theorem exists_place {α β : Type} {as : List α} {bs : List β} (h : as.length = bs.length) {a : α} (ha : a ∈ as) :
    ∃ (k : Nat) (b : β), as[k]? = some a ∧ bs[k]? = some b := by
  obtain ⟨k, hk⟩ := List.mem_iff_getElem?.mp ha
  have hlt := (List.getElem?_eq_some_iff.mp hk).1
  exact ⟨k, _, hk, List.getElem?_eq_getElem (h ▸ hlt)⟩

/-- What a container holds unfolds to a smaller tree, if the container unfolds to one. -/
theorem Unfolds.of_holds {i : Fin g.size} {x : Item (Fin g.size)} {v : Value} (h : g.Unfolds (.cell i) v)
    (hx : g.Holds i x) : ∃ u, g.Unfolds x u ∧ u.weight < v.weight := by
  cases h with
  | @array _ items vs hcell hlength hplaces =>
    rw [Holds, hcell.contents_eq] at hx
    obtain ⟨k, u, hk, hu⟩ := exists_place hlength hx
    exact ⟨u, hplaces k x u hk hu, weight_lt_array (List.mem_of_getElem? hu)⟩
  | @object _ entries names vs hcell hkeys hlength hplaces =>
    rw [Holds, hcell] at hx
    rcases List.mem_append.mp hx with hx | hx
    · -- The keys are texts, which unfold to strings.
      rw [hkeys] at hx
      obtain ⟨t, -, rfl⟩ := List.mem_map.mp hx
      refine ⟨.string t, .scalar rfl, ?_⟩
      simp only [Value.weight]
      omega
    · obtain ⟨k, u, hk, hu⟩ := exists_place hlength hx
      have hnames : names.length = vs.length := by
        have hkeysLength := congrArg List.length hkeys
        simp only [List.length_map] at hkeysLength hlength
        omega
      obtain ⟨m, hm, rfl⟩ : ∃ m ∈ names.zip vs, m.2 = u := by
        have hmem := List.mem_of_getElem? hu
        rw [← List.map_snd_zip (Nat.le_of_eq hnames.symm)] at hmem
        exact List.mem_map.mp hmem
      exact ⟨m.2, hplaces k x m.2 hk hu, weight_lt_object hm⟩

theorem Unfolds.of_reaches {x y : Item (Fin g.size)} {v : Value} (h : g.Unfolds x v) (hy : g.Reaches x y) :
    ∃ u, g.Unfolds y u ∧ u.weight ≤ v.weight := by
  induction hy generalizing v with
  | refl x => exact ⟨v, h, Nat.le_refl _⟩
  | step hold _ ih =>
    obtain ⟨u, hu, hlt⟩ := h.of_holds hold
    obtain ⟨w, hw, hle⟩ := ih hu
    exact ⟨w, hw, by omega⟩

/-- A container that unfolds to a tree does not hold itself: its tree would be smaller than itself. -/
theorem Unfolds.not_contains_self {i : Fin g.size} {v : Value} (h : g.Unfolds (.cell i) v) :
    ¬g.Contains i (.cell i) := by
  rintro ⟨x, hx, hreaches⟩
  obtain ⟨u, hu, hlt⟩ := h.of_holds hx
  obtain ⟨w, hw, hle⟩ := hu.of_reaches hreaches
  obtain rfl := h.unique hw
  omega

/-! ### The recursion finds the tree, or a reason for failing -/

/-- A failure that what is reached from the item accounts for. -/
inductive Refuses (g : Graph) (x : Item (Fin g.size)) : Problem → Prop where
  | scalar {s : Scalar} {e : Problem} (reaches : g.Reaches x (.scalar s)) (refused : s.toValue = .error e) :
      Refuses g x e
  | key {i : Fin g.size} {entries : List (Item (Fin g.size) × Item (Fin g.size))}
      {entry : Item (Fin g.size) × Item (Fin g.size)} (reaches : g.Reaches x (.cell i))
      (cell : g.cellAt i = .table entries) (mem : entry ∈ entries) (noText : ∀ t, entry.1 ≠ .scalar (.text t)) :
      Refuses g x (.keyType (g.typeName entry.1))
  | set {i : Fin g.size} {items : List (Item (Fin g.size))} (reaches : g.Reaches x (.cell i))
      (cell : g.cellAt i = .set items) : Refuses g x (.datumType "set")
  | circular {i : Fin g.size} (reaches : g.Reaches x (.cell i)) (contains : g.Contains i (.cell i)) :
      Refuses g x .circular

theorem Refuses.of_reaches {x y : Item (Fin g.size)} {e : Problem} (h : g.Refuses y e) (hxy : g.Reaches x y) :
    g.Refuses x e := by
  cases h with
  | scalar reaches refused => exact .scalar (hxy.trans reaches) refused
  | key reaches cell mem noText => exact .key (hxy.trans reaches) cell mem noText
  | set reaches cell => exact .set (hxy.trans reaches) cell
  | circular reaches contains => exact .circular (hxy.trans reaches) contains

theorem keyText_error {x : Item (Fin g.size)} {e : Problem} (h : g.keyText x = .error e) :
    (∀ t, x ≠ .scalar (.text t)) ∧ e = .keyType (g.typeName x) := by
  unfold keyText at h
  split at h
  · cases h
  · rename_i hne
    exact ⟨hne, (Except.error.inj h).symm⟩

theorem keys_of_mapM {entries : List (Item (Fin g.size) × Item (Fin g.size))} {names : List Text}
    (h : entries.mapM (fun e => g.keyText e.1) = .ok names) :
    entries.map Prod.fst = names.map fun t => .scalar (.text t) := by
  obtain ⟨hlength, hplaces⟩ := places_of_mapM h
  refine Value.eq_of_places (by simpa using hlength) fun k x y hx hy => ?_
  rw [List.getElem?_map, Option.map_eq_some_iff] at hx hy
  obtain ⟨e, he, rfl⟩ := hx
  obtain ⟨t, ht, rfl⟩ := hy
  exact keyText_eq_ok_iff.mp (hplaces k e t he ht)

/-- The recursion finds no other tree than the one that the item unfolds to. -/
theorem unfolds_of_treeFrom {active : Vector Bool g.size} {x : Item (Fin g.size)} {v : Value}
    (h : g.treeFrom active x = .ok v) : g.Unfolds x v := by
  induction active, x using treeFrom_induction generalizing v with
  | scalar active s => exact .scalar h
  | circular active i hopen => cases h
  | array active i items hclosed hcell ih =>
    obtain ⟨vs, hvs, h⟩ := bind_eq_ok_iff.mp h
    obtain rfl := Except.ok.inj h
    obtain ⟨hlength, hplaces⟩ := places_of_mapM hvs
    exact .array hcell hlength fun k x u hx hu => ih x (hplaces k x u hx hu)
  | set active i items hclosed hcell => cases h
  | object active i entries hclosed hcell ih =>
    obtain ⟨names, hnames, h⟩ := bind_eq_ok_iff.mp h
    obtain ⟨vs, hvs, h⟩ := bind_eq_ok_iff.mp h
    obtain rfl := Except.ok.inj h
    obtain ⟨hlength, hplaces⟩ := places_of_mapM hvs
    exact .object hcell (keys_of_mapM hnames) hlength fun k x u hx hu => ih x (hplaces k x u hx hu)

/-- The open containers hold the item. -/
def OpenAbove (active : Vector Bool g.size) (x : Item (Fin g.size)) : Prop :=
  ∀ j : Fin g.size, active.get j = true → g.Contains j x

theorem OpenAbove.open {active : Vector Bool g.size} {i : Fin g.size} {x : Item (Fin g.size)}
    (h : OpenAbove active (.cell i)) (hx : g.Holds i x) : OpenAbove (active.set i true i.isLt) x := by
  intro j hj
  by_cases hji : j = i
  · rw [hji]
    exact hx.contains
  · have hne : ¬i.val = j.val := fun heq => hji (Fin.ext heq.symm)
    change (active.set i true i.isLt)[j.val] = true at hj
    rw [Vector.getElem_set, if_neg hne] at hj
    exact (h j hj).trans_reaches hx.reaches

theorem openAbove_start (x : Item (Fin g.size)) : OpenAbove (Vector.replicate g.size false) x := by
  intro j hj
  change (Vector.replicate g.size false)[j.val] = true at hj
  rw [Vector.getElem_replicate] at hj
  cases hj

/-- If the recursion fails below containers that hold the item, then something that is reached from the item accounts
for it. -/
theorem refuses_of_treeFrom {active : Vector Bool g.size} {x : Item (Fin g.size)} {e : Problem}
    (hactive : OpenAbove active x) (h : g.treeFrom active x = .error e) : g.Refuses x e := by
  induction active, x using treeFrom_induction generalizing e with
  | scalar active s => exact .scalar (.refl _) h
  | circular active i hopen =>
    obtain rfl := Except.error.inj h
    exact .circular (.refl _) (hactive i hopen)
  | array active i items hclosed hcell ih =>
    have hitems : items.mapM (g.treeFrom (active.set i true i.isLt)) = .error e := by
      simpa [bind_eq_error_iff] using h
    obtain ⟨x, hx, hfails⟩ := exists_of_mapM_error hitems
    have hholds := holds_item hcell hx
    exact (ih x (hactive.open hholds) hfails).of_reaches hholds.reaches
  | set active i items hclosed hcell =>
    obtain rfl := Except.error.inj h
    exact .set (.refl _) hcell
  | object active i entries hclosed hcell ih =>
    rcases bind_eq_error_iff.mp h with hkeys | ⟨names, -, h⟩
    · obtain ⟨entry, hmem, hkey⟩ := exists_of_mapM_error hkeys
      obtain ⟨hno, rfl⟩ := keyText_error hkey
      exact .key (.refl _) hcell hmem hno
    · have hvalues : (entries.map Prod.snd).mapM (g.treeFrom (active.set i true i.isLt)) = .error e := by
        simpa [bind_eq_error_iff] using h
      obtain ⟨x, hx, hfails⟩ := exists_of_mapM_error hvalues
      have hholds := holds_value hcell hx
      exact (ih x (hactive.open hholds) hfails).of_reaches hholds.reaches

/-- A graph is turned into the tree that its root unfolds to. -/
theorem unfolds_of_toValue {v : Value} (h : g.toValue = .ok v) : g.Unfolds g.root v := by
  rw [toValue_eq_tree] at h
  exact unfolds_of_treeFrom h

theorem refuses_of_toValue {e : Problem} (h : g.toValue = .error e) : g.Refuses g.root e := by
  rw [toValue_eq_tree] at h
  exact refuses_of_treeFrom (openAbove_start g.root) h

/-! ### The wording of a cycle -/

theorem ne_circular_of_head {e : Problem} {ch : Char} (h : e.message.head? = some (CodePoint.ofChar ch))
    (hne : CodePoint.ofChar ch ≠ CodePoint.ofChar 'C') : e.message ≠ Problem.circular.message := by
  intro heq
  rw [heq] at h
  exact hne (Option.some.inj h).symm

theorem ne_circular_of_scalar {s : Scalar} {e : Problem} (h : s.toValue = .error e) :
    e.message ≠ Problem.circular.message := by
  have htype : ∀ name : Text, (Problem.datumType name).message ≠ Problem.circular.message :=
    fun name => @ne_circular_of_head _ 'N' rfl (by decide)
  have hfinite : ∀ t : Text, (Problem.notFinite t).message ≠ Problem.circular.message :=
    fun t => @ne_circular_of_head _ 'N' rfl (by decide)
  cases s with
  | none => cases h
  | bool b => cases h
  | int n =>
    rcases Scalar.toValue_int n with hn | hn
    · cases hn.symm.trans h
    · obtain rfl := Except.error.inj (hn.symm.trans h)
      have hhead : Problem.integerTooLong.message.head? = some (CodePoint.ofChar 'E') := by
        simp [Problem.message, Text.ofString, Text.ofChars]
      exact ne_circular_of_head hhead (by decide)
  | float x =>
    rw [Scalar.toValue] at h
    split at h
    · cases h
    · obtain rfl := Except.error.inj h
      exact hfinite _
  | decimal d =>
    rw [Scalar.toValue] at h
    split at h
    · cases h
    · obtain rfl := Except.error.inj h
      exact hfinite _
  | text t => cases h
  | bytes bs =>
    obtain rfl := Except.error.inj h
    exact htype _
  | other name =>
    obtain rfl := Except.error.inj h
    exact htype _

/-- Only a container that holds itself is reported in the words of a circular reference. -/
theorem Refuses.circular_of_message {x : Item (Fin g.size)} {e : Problem} (h : g.Refuses x e)
    (hmessage : e.message = Problem.circular.message) :
    ∃ i, g.Reaches x (.cell i) ∧ g.Contains i (.cell i) := by
  cases h with
  | scalar reaches refused => exact absurd hmessage (ne_circular_of_scalar refused)
  | key reaches cell mem noText => exact absurd hmessage (@ne_circular_of_head _ 'D' rfl (by decide))
  | set reaches cell => exact absurd hmessage (@ne_circular_of_head _ 'N' rfl (by decide))
  | circular reaches contains => exact ⟨_, reaches, contains⟩

end Graph

open CanonJson.Graph

/-- Every finite graph of containers and scalars is converted or refused after finitely many tasks. If no container that is
reached holds itself, all keys are texts, no set is reached and all scalars have trees, then the result is the one tree that
the graph unfolds to, shared containers being expanded at each use. If a container that is reached holds itself, the
conversion fails; and it only fails with the words of a circular reference if there is one. -/
theorem toValue_unfolds_or_refuses (g : Graph) :
    (∃ n ≤ g.effort g.size, g.start.Takes n (g.toValue.map fun v => [v]))
    ∧ ((∀ i, g.Reaches g.root (.cell i) → ¬g.Contains i (.cell i)) →
      (∀ i entries, g.Reaches g.root (.cell i) → g.cellAt i = .table entries →
        ∀ e ∈ entries, ∃ t, e.1 = .scalar (.text t)) →
      (∀ i items, g.Reaches g.root (.cell i) → g.cellAt i ≠ .set items) →
      (∀ s, g.Reaches g.root (.scalar s) → ∃ v, s.toValue = .ok v) →
      ∃ v, g.toValue = .ok v ∧ g.Unfolds g.root v ∧ ∀ u, g.Unfolds g.root u → u = v)
    ∧ (∀ i, g.Reaches g.root (.cell i) → g.Contains i (.cell i) → ∃ e, g.toValue = .error e)
    ∧ (∀ e, g.toValue = .error e → e.message = "Circular reference detected" →
      ∃ i, g.Reaches g.root (.cell i) ∧ g.Contains i (.cell i)) := by
  refine ⟨?_, ?_, ?_, ?_⟩
  · obtain ⟨n, hn, htakes⟩ := g.start.exists_takes
    rw [work_start] at hn
    rw [run_start, ← toValue_eq_tree] at htakes
    exact ⟨n, hn, htakes⟩
  · intro hacyclic hkeys hsets hscalars
    cases hresult : g.toValue with
    | ok v =>
      have hunfolds := unfolds_of_toValue hresult
      exact ⟨v, rfl, hunfolds, fun u hu => hunfolds.unique hu⟩
    | error e =>
      cases refuses_of_toValue hresult with
      | scalar reaches refused =>
        obtain ⟨v, hv⟩ := hscalars _ reaches
        rw [hv] at refused
        cases refused
      | key reaches cell mem noText =>
        obtain ⟨t, ht⟩ := hkeys _ _ reaches cell _ mem
        exact absurd ht (noText t)
      | set reaches cell => exact absurd cell (hsets _ _ reaches)
      | circular reaches contains => exact absurd contains (hacyclic _ reaches)
  · intro i hreaches hcontains
    cases hresult : g.toValue with
    | ok v =>
      obtain ⟨u, hu, -⟩ := (unfolds_of_toValue hresult).of_reaches hreaches
      exact absurd hcontains hu.not_contains_self
    | error e => exact ⟨e, rfl⟩
  · intro e hresult hmessage
    exact (refuses_of_toValue hresult).circular_of_message hmessage

/-- A list holds one table twice, which is no cycle; and the first of two containers holds itself in the other one. -/
theorem toValue_unfolds_or_refuses_shared :
    let k : Text := Text.ofChars ['k']
    let shared : Graph :=
      ⟨2, #v[.list [.cell 1, .scalar (.bool true), .cell 1], .table [(.scalar (.text k), .scalar .none)]], .cell 0⟩
    let circular : Graph := ⟨2, #v[.table [(.scalar (.text k), .cell 1)], .tuple [.scalar .none, .cell 0]], .cell 0⟩
    let v : Value := .array [.object [(k, .null)], .bool true, .object [(k, .null)]]
    shared.Unfolds shared.root v ∧ shared.toValue = .ok v ∧ ∃ e, circular.toValue = .error e := by
  intro k shared circular v
  have htable : shared.Unfolds (.cell 1) (.object [(k, .null)]) := by
    refine @Unfolds.object shared 1 [(.scalar (.text k), .scalar .none)] [k] [.null] rfl rfl rfl ?_
    rintro (_ | n) x u hx hu
    · obtain rfl := Option.some.inj hx
      obtain rfl := Option.some.inj hu
      exact .scalar rfl
    · cases hx
  have hunfolds : shared.Unfolds shared.root v := by
    refine .array (.inl rfl) rfl ?_
    rintro (_ | _ | _ | n) x u hx hu
    · obtain rfl := Option.some.inj hx
      obtain rfl := Option.some.inj hu
      exact htable
    · obtain rfl := Option.some.inj hx
      obtain rfl := Option.some.inj hu
      exact .scalar rfl
    · obtain rfl := Option.some.inj hx
      obtain rfl := Option.some.inj hu
      exact htable
    · cases hx
  have hacyclic : ∀ i, shared.Reaches shared.root (.cell i) → ¬shared.Contains i (.cell i) := by
    intro i hi
    obtain ⟨u, hu, -⟩ := hunfolds.of_reaches hi
    exact hu.not_contains_self
  have hkeys : ∀ i entries, shared.cellAt i = .table entries → ∀ e ∈ entries, ∃ t, e.1 = .scalar (.text t) := by
    intro i entries hcell e he
    match i with
    | 0 => cases hcell
    | 1 =>
      obtain rfl := Cell.table.inj hcell
      obtain rfl := List.mem_singleton.mp he
      exact ⟨k, rfl⟩
  have hsets : ∀ i items, shared.cellAt i ≠ .set items := by
    intro i items hcell
    match i with
    | 0 => cases hcell
    | 1 => cases hcell
  have hscalars : ∀ s, shared.Reaches shared.root (.scalar s) → ∃ v, s.toValue = .ok v := by
    intro s hs
    obtain ⟨u, hu, -⟩ := hunfolds.of_reaches hs
    cases hu with
    | scalar h => exact ⟨u, h⟩
  obtain ⟨-, hok, -, -⟩ := toValue_unfolds_or_refuses shared
  obtain ⟨-, -, hfails, -⟩ := toValue_unfolds_or_refuses circular
  obtain ⟨u, hu, -, hunique⟩ := hok hacyclic (fun i entries _ => hkeys i entries) (fun i items _ => hsets i items) hscalars
  have hself : circular.Contains 0 (.cell 0) := by
    have hfirst : circular.Holds 0 (.cell 1) := List.mem_cons_of_mem _ (List.mem_singleton.mpr rfl)
    have hsecond : circular.Holds 1 (.cell 0) := List.mem_cons_of_mem _ (List.mem_singleton.mpr rfl)
    exact ⟨.cell 1, hfirst, hsecond.reaches⟩
  exact ⟨hunfolds, hunique v hunfolds ▸ hu, hfails 0 (.refl _) hself⟩

end CanonJson
