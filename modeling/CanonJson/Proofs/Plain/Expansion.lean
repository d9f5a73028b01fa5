import CanonJson.Plain.Convert
import CanonJson.Proofs.Plain.Unfolding
/-!
# Graphs that expand to data

A graph in which no container holds itself expands to plain data. The walk through such a graph gives the tree of
these data: the tree that the expansion has is the one that the graph unfolds to, and an item that unfolds gives
no reason for a failure.
-/

namespace CanonJson

namespace Datum

theorem entriesToValues_eq (entries : List (Datum × Datum)) :
    entriesToValues entries = itemsToValues (entries.map Prod.snd) := by
  induction entries with
  | nil => rfl
  | cons e entries ih => rw [entriesToValues, ih, List.map_cons, itemsToValues]

theorem keyText_eq_ok_iff {d : Datum} {t : Text} : d.keyText = .ok t ↔ d = .scalar (.text t) := by
  cases d with
  | scalar s => cases s <;> simp [keyText]
  | _ => simp [keyText]

end Datum

namespace Graph

variable {g : Graph}

/-! ### An item that unfolds is not refused -/

theorem Unfolds.not_refuses {x : Item (Fin g.size)} {v : Value} {e : Problem} (h : g.Unfolds x v) :
    ¬g.Refuses x e := by
  intro hrefuses
  cases hrefuses with
  | scalar reaches refused =>
    obtain ⟨u, hu, -⟩ := h.of_reaches reaches
    cases hu with
    | scalar accepted => cases accepted.symm.trans refused
  | key reaches cell mem noText =>
    obtain ⟨u, hu, -⟩ := h.of_reaches reaches
    cases hu with
    | array cell' => exact cell'.ne_table cell
    | @object _ entries names vs cell' keys =>
      obtain rfl := Cell.table.inj (cell'.symm.trans cell)
      have hkey := List.mem_map_of_mem mem (f := Prod.fst)
      rw [keys] at hkey
      obtain ⟨t, -, ht⟩ := List.mem_map.mp hkey
      exact noText t ht.symm
  | set reaches cell =>
    obtain ⟨u, hu, -⟩ := h.of_reaches reaches
    cases hu with
    | array cell' => rcases cell' with cell' | cell' <;> cases cell'.symm.trans cell
    | object cell' => cases cell'.symm.trans cell
  | circular reaches contains =>
    obtain ⟨u, hu, -⟩ := h.of_reaches reaches
    exact hu.not_contains_self contains

/-- A graph that unfolds to a tree is turned into it. -/
theorem toValue_of_unfolds {v : Value} (h : g.Unfolds g.root v) : g.toValue = .ok v := by
  cases hresult : g.toValue with
  | ok u => rw [h.unique (unfolds_of_toValue hresult)]
  | error e => exact absurd (refuses_of_toValue hresult) h.not_refuses

/-! ### The expansion has the tree -/

/-- Items unfold to the trees that the data in their places have. -/
def UnfoldsLike (f : Item (Fin g.size) → Option Datum) : Prop :=
  ∀ x d v, f x = some d → d.toValue = .ok v → g.Unfolds x v

theorem UnfoldsLike.items {f : Item (Fin g.size) → Option Datum} (hf : UnfoldsLike f)
    {items : List (Item (Fin g.size))} {ds : List Datum} {vs : List Value} (hds : items.mapM f = some ds)
    (hvs : Datum.itemsToValues ds = .ok vs) :
    items.length = vs.length ∧ ∀ (k : Nat) x v, items[k]? = some x → vs[k]? = some v → g.Unfolds x v := by
  induction items generalizing ds vs with
  | nil =>
    obtain rfl := Option.some.inj hds
    obtain rfl := Except.ok.inj hvs
    simp
  | cons x items ih =>
    obtain ⟨d, rest, hd, hrest, rfl⟩ := mapM_cons_eq_some_iff.mp hds
    rw [Datum.itemsToValues] at hvs
    obtain ⟨v, hv, hvs⟩ := bind_eq_ok_iff.mp hvs
    obtain ⟨vs, htail, hvs⟩ := bind_eq_ok_iff.mp hvs
    obtain rfl := Except.ok.inj hvs
    obtain ⟨hlength, hplaces⟩ := ih hrest htail
    refine ⟨by rw [List.length_cons, List.length_cons, hlength], fun k y u hy hu => ?_⟩
    cases k with
    | zero =>
      obtain rfl := Option.some.inj hy
      obtain rfl := Option.some.inj hu
      exact hf x d v hd hv
    | succ k => exact hplaces k y u hy hu

theorem eq_scalar_of_expandFrom? {fuel : Nat} {x : Item (Fin g.size)} {s : Scalar}
    (h : g.expandFrom? fuel x = some (.scalar s)) : x = .scalar s := by
  cases x with
  | scalar s' =>
    rw [expandFrom?] at h
    rw [Datum.scalar.inj (Option.some.inj h)]
  | cell i =>
    -- The expansion of a container is a container.
    cases fuel with
    | zero => cases h
    | succ fuel =>
      rw [expandFrom?] at h
      split at h <;> simp at h

theorem names_of_expandFrom? {fuel : Nat} {keys : List (Item (Fin g.size))} {ds : List Datum} {names : List Text}
    (hds : keys.mapM (g.expandFrom? fuel) = some ds) (hnames : ds.mapM Datum.keyText = .ok names) :
    keys = names.map fun t => .scalar (.text t) := by
  induction keys generalizing ds names with
  | nil =>
    obtain rfl := Option.some.inj hds
    obtain rfl := Except.ok.inj hnames
    rfl
  | cons x keys ih =>
    obtain ⟨d, rest, hd, hrest, rfl⟩ := mapM_cons_eq_some_iff.mp hds
    rw [List.mapM_cons] at hnames
    obtain ⟨t, ht, hnames⟩ := bind_eq_ok_iff.mp hnames
    obtain ⟨names, htail, hnames⟩ := bind_eq_ok_iff.mp hnames
    obtain rfl := Except.ok.inj hnames
    obtain rfl := Datum.keyText_eq_ok_iff.mp ht
    rw [List.map_cons, ← ih hrest htail, eq_scalar_of_expandFrom? hd]

/-- An item unfolds to the tree of its expansion. -/
theorem unfolds_of_expandFrom? (fuel : Nat) : UnfoldsLike (g.expandFrom? fuel) := by
  have hscalar : ∀ fuel s d v, g.expandFrom? fuel (.scalar s) = some d → d.toValue = .ok v →
      g.Unfolds (.scalar s) v := by
    intro fuel s d v hd hv
    rw [expandFrom?] at hd
    obtain rfl := Option.some.inj hd
    exact .scalar hv
  induction fuel with
  | zero =>
    rintro (s | i) d v hd hv
    · exact hscalar 0 s d v hd hv
    · cases hd
  | succ fuel ih =>
    rintro (s | i) d v hd hv
    · exact hscalar (fuel + 1) s d v hd hv
    · have hsequence : ∀ items ds v, (g.cellAt i).IsSequence items → items.mapM (g.expandFrom? fuel) = some ds →
          (Datum.itemsToValues ds >>= fun vs => .ok (.array vs)) = .ok v → g.Unfolds (.cell i) v := by
        intro items ds v hcell hds hv
        obtain ⟨vs, hvs, hv⟩ := bind_eq_ok_iff.mp hv
        obtain rfl := Except.ok.inj hv
        obtain ⟨hlength, hplaces⟩ := ih.items hds hvs
        exact .array hcell hlength hplaces
      rw [expandFrom?] at hd
      split at hd
      · rename_i items hcell
        obtain ⟨ds, hds, rfl⟩ := Option.map_eq_some_iff.mp hd
        exact hsequence items ds v (.inl hcell) hds hv
      · rename_i items hcell
        obtain ⟨ds, hds, rfl⟩ := Option.map_eq_some_iff.mp hd
        exact hsequence items ds v (.inr hcell) hds hv
      · obtain ⟨ds, -, rfl⟩ := Option.map_eq_some_iff.mp hd
        cases hv
      · rename_i entries hcell
        obtain ⟨ds, hds, rfl⟩ := Option.map_eq_some_iff.mp hd
        obtain ⟨names, hnames, hv⟩ := bind_eq_ok_iff.mp hv
        obtain ⟨vs, hvs, hv⟩ := bind_eq_ok_iff.mp hv
        obtain rfl := Except.ok.inj hv
        obtain ⟨hkeys, hvalues⟩ := halves_of_mapM hds
        have hkeyTexts : (ds.map Prod.fst).mapM Datum.keyText = .ok names := by
          rwa [List.mapM_map]
        rw [Datum.entriesToValues_eq] at hvs
        obtain ⟨hlength, hplaces⟩ := ih.items hvalues hvs
        exact .object hcell (names_of_expandFrom? hkeys hkeyTexts) hlength hplaces

/-- The walk through a graph gives the tree of the data that the graph expands to. -/
theorem toValue_of_expand? {d : Datum} {v : Value} (h : g.expand? = some d) (hv : d.toValue = .ok v) :
    g.toValue = .ok v :=
  toValue_of_unfolds (unfolds_of_expandFrom? g.size _ _ _ h hv)

/-- A graph that stands for a scalar is that scalar, and succeeds or fails as it does. -/
theorem toValue_of_expand?_scalar {s : Scalar} (h : g.expand? = some (.scalar s)) : g.toValue = s.toValue := by
  rw [toValue_eq_tree, eq_scalar_of_expandFrom? h, tree, treeFrom]

/-! ### Which graphs expand -/

/-- A container expands exactly if everything that it holds expands through one container less. -/
theorem isSome_expandFrom?_succ {fuel : Nat} {i : Fin g.size} :
    (g.expandFrom? (fuel + 1) (.cell i)).isSome = true
      ↔ ∀ x, g.Holds i x → (g.expandFrom? fuel x).isSome = true := by
  have hboth : ∀ k v, (do return (← g.expandFrom? fuel k, ← g.expandFrom? fuel v) : Option (Datum × Datum)).isSome
      = true ↔ (g.expandFrom? fuel k).isSome = true ∧ (g.expandFrom? fuel v).isSome = true := by
    intro k v
    cases g.expandFrom? fuel k <;> cases g.expandFrom? fuel v <;> simp
  rw [expandFrom?]
  simp only [Holds]
  split
  · rename_i items hcell
    rw [hcell, Option.isSome_map, isSome_mapM]
    rfl
  · rename_i items hcell
    rw [hcell, Option.isSome_map, isSome_mapM]
    rfl
  · rename_i items hcell
    rw [hcell, Option.isSome_map, isSome_mapM]
    rfl
  · rename_i entries hcell
    rw [hcell, Option.isSome_map, isSome_mapM]
    simp only [hboth, Cell.contents, List.mem_append, List.mem_map]
    constructor
    · rintro h x (⟨e, he, rfl⟩ | ⟨e, he, rfl⟩)
      · exact (h e he).1
      · exact (h e he).2
    · intro h e he
      exact ⟨h e.1 (.inl ⟨e, he, rfl⟩), h e.2 (.inr ⟨e, he, rfl⟩)⟩

theorem isSome_expandFrom?_of_reaches {fuel : Nat} {x y : Item (Fin g.size)} (hy : g.Reaches x y)
    (h : (g.expandFrom? fuel x).isSome = true) : ∃ fuel' ≤ fuel, (g.expandFrom? fuel' y).isSome = true := by
  induction hy generalizing fuel with
  | refl x => exact ⟨fuel, Nat.le_refl _, h⟩
  | step hold _ ih =>
    cases fuel with
    | zero => cases h
    | succ fuel =>
      obtain ⟨fuel', hle, hy⟩ := ih (isSome_expandFrom?_succ.mp h _ hold)
      exact ⟨fuel', Nat.le_succ_of_le hle, hy⟩

/-- A container that expands does not hold itself: inside of itself it would expand through fewer containers. -/
theorem not_contains_self_of_expandFrom? {fuel : Nat} {i : Fin g.size}
    (h : (g.expandFrom? fuel (.cell i)).isSome = true) : ¬g.Contains i (.cell i) := by
  rintro ⟨x, hx, hreaches⟩
  induction fuel using Nat.strongRecOn with
  | ind fuel ih =>
    cases fuel with
    | zero => cases h
    | succ fuel =>
      obtain ⟨fuel', hle, hinner⟩ := isSome_expandFrom?_of_reaches hreaches (isSome_expandFrom?_succ.mp h x hx)
      exact ih fuel' (Nat.lt_succ_of_le hle) hinner

/-- If no container below holds itself, an item expands through as many containers as are not open above it. -/
theorem isSome_expandFrom?_of_room {fuel : Nat} {active : Vector Bool g.size} {x : Item (Fin g.size)}
    (hactive : OpenAbove active x) (hacyclic : ∀ i, g.Reaches x (.cell i) → ¬g.Contains i (.cell i))
    (hroom : Walk.room active ≤ fuel) : (g.expandFrom? fuel x).isSome = true := by
  induction fuel generalizing active x with
  | zero =>
    cases x with
    | scalar s => rfl
    | cell i =>
      have hclosed : ¬active.get i = true := fun hopen => hacyclic i (.refl _) (hactive i hopen)
      have := Walk.room_open hclosed
      omega
  | succ fuel ih =>
    cases x with
    | scalar s => rfl
    | cell i =>
      have hclosed : ¬active.get i = true := fun hopen => hacyclic i (.refl _) (hactive i hopen)
      have hopened := Walk.room_open hclosed
      refine isSome_expandFrom?_succ.mpr fun x hx => ih (hactive.open hx) ?_ (by omega)
      exact fun j hj => hacyclic j (hx.reaches.trans hj)

/-- A graph expands to data exactly if no container that is reached holds itself. -/
theorem isSome_expand?_iff :
    g.expand?.isSome = true ↔ ∀ i, g.Reaches g.root (.cell i) → ¬g.Contains i (.cell i) := by
  constructor
  · intro h i hreaches
    obtain ⟨fuel, -, hcell⟩ := isSome_expandFrom?_of_reaches hreaches h
    exact not_contains_self_of_expandFrom? hcell
  · intro hacyclic
    exact isSome_expandFrom?_of_room (openAbove_start g.root) hacyclic (by simp [Walk.room])

end Graph

end CanonJson
