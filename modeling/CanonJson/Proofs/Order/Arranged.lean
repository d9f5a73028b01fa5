import CanonJson.Proofs.Order.Element
import CanonJson.Proofs.Value.Occurs
import CanonJson.Proofs.Value.Walk
/-!
# The canonical tree

`arranged` is the canonical order as a function of the tree, by recursion: first the children, then the node,
sorted by the orders that the tree is compared in. A tree that can be printed is put in this order as long as its
keys can be compared, and otherwise not at all (`canonicalize_isOk_iff`); the keys of a well-formed tree always can.
The result of a well-formed tree is well formed and no deeper, it is sorted at every level, and a tree that is sorted
at every level is its own result.
-/

namespace CanonJson

/-- The members of an object, sorted by their keys if the options say so. -/
def arrangeMembers (o : SortOptions) (members : List (Text × Value)) : List (Text × Value) :=
  if o.sortKeys then members.mergeSort fun a b => o.keyOrder.le a.1 b.1 else members

/-- The items of an array, sorted by a member's value if the options name one. -/
def arrangeItems (o : SortOptions) (items : List Value) : List Value :=
  match o.arraysBy with
  | some member => items.mergeSort fun a b => (elementKey member a).le (elementKey member b)
  | none => items

mutual

/-- The tree in canonical order. -/
def arranged (o : SortOptions) : Value → Value
  | .array items => .array (arrangeItems o (arrangedItems o items))
  | .object members => .object (arrangeMembers o (arrangedMembers o members))
  | v => v

def arrangedItems (o : SortOptions) : List Value → List Value
  | [] => []
  | v :: vs => arranged o v :: arrangedItems o vs

def arrangedMembers (o : SortOptions) : List (Text × Value) → List (Text × Value)
  | [] => []
  | (k, v) :: ms => (k, arranged o v) :: arrangedMembers o ms

end

variable {o : SortOptions}

theorem arrangedItems_eq_map (o : SortOptions) (items : List Value) :
    arrangedItems o items = items.map (arranged o) := by
  induction items with
  | nil => rfl
  | cons v vs ih => rw [arrangedItems, ih, List.map_cons]

theorem arrangedMembers_eq_map (o : SortOptions) (members : List (Text × Value)) :
    arrangedMembers o members = members.map fun m => (m.1, arranged o m.2) := by
  induction members with
  | nil => rfl
  | cons m ms ih => rw [arrangedMembers, ih, List.map_cons]

@[simp] theorem arranged_null : arranged o .null = .null := by
  rw [arranged] <;> simp

@[simp] theorem arranged_bool (b : Bool) : arranged o (.bool b) = .bool b := by
  rw [arranged] <;> simp

@[simp] theorem arranged_number (t : Text) : arranged o (.number t) = .number t := by
  rw [arranged] <;> simp

@[simp] theorem arranged_string (t : Text) : arranged o (.string t) = .string t := by
  rw [arranged] <;> simp

@[simp] theorem arranged_foreign (d : Datum) : arranged o (.foreign d) = .foreign d := by
  rw [arranged] <;> simp

@[simp] theorem arranged_array (items : List Value) :
    arranged o (.array items) = .array (arrangeItems o (items.map (arranged o))) := by
  rw [arranged, arrangedItems_eq_map]

@[simp] theorem arranged_object (members : List (Text × Value)) :
    arranged o (.object members)
      = .object (arrangeMembers o (members.map fun m => (m.1, arranged o m.2))) := by
  rw [arranged, arrangedMembers_eq_map]

/-! ### The same children -/

theorem arrangeMembers_perm (o : SortOptions) (members : List (Text × Value)) :
    (arrangeMembers o members).Perm members := by
  unfold arrangeMembers
  split
  · exact List.mergeSort_perm _ _
  · exact .refl _

theorem arrangeItems_perm (o : SortOptions) (items : List Value) :
    (arrangeItems o items).Perm items := by
  unfold arrangeItems
  split
  · exact List.mergeSort_perm _ _
  · exact .refl _

theorem exists_of_mem_arrangeItems {items : List Value} {u : Value}
    (hu : u ∈ arrangeItems o (items.map (arranged o))) : ∃ v ∈ items, arranged o v = u :=
  List.mem_map.mp ((arrangeItems_perm o _).mem_iff.mp hu)

theorem exists_of_mem_arrangeMembers {members : List (Text × Value)} {n : Text × Value}
    (hn : n ∈ arrangeMembers o (members.map fun m => (m.1, arranged o m.2))) :
    ∃ m ∈ members, (m.1, arranged o m.2) = n :=
  List.mem_map.mp ((arrangeMembers_perm o _).mem_iff.mp hn)

theorem wellFormed_arranged {v : Value} (hv : v.WellFormed) : (arranged o v).WellFormed := by
  induction v using Value.childInduction with
  | null => simpa using hv
  | bool b => simpa using hv
  | number t => simpa using hv
  | string t => simpa using hv
  | array items ih =>
    rw [Value.wellFormed_array] at hv
    rw [arranged_array, Value.wellFormed_array]
    intro u hu
    obtain ⟨v, hmem, rfl⟩ := exists_of_mem_arrangeItems hu
    exact ih v hmem (hv v hmem)
  | object members ih =>
    rw [Value.wellFormed_object] at hv
    rw [arranged_object, Value.wellFormed_object]
    intro n hn
    obtain ⟨m, hm, rfl⟩ := exists_of_mem_arrangeMembers hn
    exact ⟨(hv m hm).1, ih m hm (hv m hm).2⟩
  | foreign d => simpa using hv

theorem depth_arranged_le (o : SortOptions) (v : Value) : (arranged o v).depth ≤ v.depth := by
  induction v using Value.childInduction with
  | null => simp
  | bool b => simp
  | number t => simp
  | string t => simp
  | array items ih =>
    rw [arranged_array, Value.depth, Value.depth, Nat.add_le_add_iff_right, Value.itemsDepth_le_iff]
    intro u hu
    obtain ⟨v, hv, rfl⟩ := exists_of_mem_arrangeItems hu
    exact Nat.le_trans (ih v hv) (Value.itemsDepth_le_iff.mp (Nat.le_refl _) v hv)
  | object members ih =>
    rw [arranged_object, Value.depth, Value.depth, Nat.add_le_add_iff_right,
      Value.membersDepth_le_iff]
    intro n hn
    obtain ⟨m, hm, rfl⟩ := exists_of_mem_arrangeMembers hn
    exact Nat.le_trans (ih m hm) (Value.membersDepth_le_iff.mp (Nat.le_refl _) m hm)
  | foreign d => simp

/-! ### Keys that can be compared -/

/-- The key can be compared with others: only UTF-16 has no place for a surrogate. -/
def SortOptions.Compares (o : SortOptions) (key : Text) : Prop :=
  o.sortKeys = true → o.keyOrder = .utf16 → key.SurrogateFree

/-- All keys of the tree can be compared. -/
def SortOptions.ComparesKeys (o : SortOptions) (v : Value) : Prop :=
  ∀ members, Value.Occurs (.object members) v → ∀ m ∈ members, o.Compares m.1

theorem SortOptions.ComparesKeys.of_occurs {u v : Value} (h : o.ComparesKeys v) (hu : Value.Occurs u v) :
    o.ComparesKeys u :=
  fun members hmembers => h members (hmembers.trans hu)

theorem Value.WellFormed.comparesKeys {v : Value} (hv : v.WellFormed) : o.ComparesKeys v :=
  fun _ hmembers m hm _ _ => (wellFormed_object.mp (hv.of_occurs hmembers) m hm).1

/-! ### What the program computes -/

theorem sortMembers_eq_ok {members : List (Text × Value)} (h : ∀ m ∈ members, o.Compares m.1) :
    sortMembers o members = .ok (arrangeMembers o members) := by
  obtain ⟨g, hg, hle⟩ := memberKey_spec o.keyOrder
  unfold sortMembers arrangeMembers
  split
  · rename_i hsort
    have hkeys : ∀ m ∈ members, memberKey o.keyOrder m.1 = .ok (g m.1) := fun m hm => hg m.1 (h m hm hsort)
    rw [sortByKey_eq_ok hkeys]
    simp only [hle]
  · rfl

theorem sortItems_eq_ok {items : List Value} (h : ∀ v ∈ items, v.Printable) :
    sortItems o items = .ok (arrangeItems o items) := by
  unfold sortItems arrangeItems
  cases o.arraysBy with
  | none => rfl
  | some member => exact sortByKey_eq_ok fun v hv => ofItem_eq_ok member (h v hv)

theorem array_canonicalAlgebra {items : List Value} (h : ∀ v ∈ items, v.Printable) :
    (canonicalAlgebra o).array items = .ok (.array (arrangeItems o items)) := by
  show (sortItems o items >>= fun sorted => pure (Value.array sorted)) = _
  rw [sortItems_eq_ok h]
  rfl

theorem object_canonicalAlgebra {members : List (Text × Value)} (h : ∀ m ∈ members, o.Compares m.1) :
    (canonicalAlgebra o).object members = .ok (.object (arrangeMembers o members)) := by
  show (sortMembers o members >>= fun sorted => pure (Value.object sorted)) = _
  rw [sortMembers_eq_ok h]
  rfl

theorem printable_arranged {v : Value} (hv : v.Printable) : (arranged o v).Printable := by
  induction v using Value.childInduction with
  | null => simpa using hv
  | bool b => simpa using hv
  | number t => simpa using hv
  | string t => simpa using hv
  | array items ih =>
    rw [Value.printable_array] at hv
    rw [arranged_array, Value.printable_array]
    intro u hu
    obtain ⟨v, hmem, rfl⟩ := exists_of_mem_arrangeItems hu
    exact ih v hmem (hv v hmem)
  | object members ih =>
    rw [Value.printable_object] at hv
    rw [arranged_object, Value.printable_object]
    intro n hn
    obtain ⟨m, hm, rfl⟩ := exists_of_mem_arrangeMembers hn
    exact ih m hm (hv m hm)
  | foreign d => exact hv.elim

theorem fold_canonicalAlgebra {v : Value} (hv : v.Printable) (hkeys : o.ComparesKeys v) :
    (canonicalAlgebra o).fold v = .ok (arranged o v) := by
  induction v using Value.childInduction with
  | null => rfl
  | bool b => rfl
  | number t => rfl
  | string t => rfl
  | array items ih =>
    rw [Value.printable_array] at hv
    have hitems : ∀ u ∈ items.map (arranged o), u.Printable := by
      intro u hu
      obtain ⟨v, hmem, rfl⟩ := List.mem_map.mp hu
      exact printable_arranged (hv v hmem)
    have hfold : ∀ v ∈ items, (canonicalAlgebra o).fold v = .ok (arranged o v) := fun v hmem =>
      ih v hmem (hv v hmem) (hkeys.of_occurs (.item hmem .self))
    rw [Algebra.fold, Algebra.foldItems_eq_ok _ hfold, ok_bind, array_canonicalAlgebra hitems, arranged_array]
  | object members ih =>
    rw [Value.printable_object] at hv
    have hcompares : ∀ n ∈ members.map fun m => (m.1, arranged o m.2), o.Compares n.1 := by
      intro n hn
      obtain ⟨m, hm, rfl⟩ := List.mem_map.mp hn
      exact hkeys members .self m hm
    have hfold : ∀ m ∈ members, (canonicalAlgebra o).fold m.2 = .ok (arranged o m.2) := fun m hm =>
      ih m hm (hv m hm) (hkeys.of_occurs (.member hm .self))
    rw [Algebra.fold, Algebra.foldMembers_eq_ok _ hfold, ok_bind, object_canonicalAlgebra hcompares, arranged_object]
  | foreign d => exact hv.elim

/-- Trees that can be printed have a canonical order, if their keys can be compared. -/
theorem canonicalize_of_comparesKeys {v : Value} (hv : v.Printable) (hkeys : o.ComparesKeys v) :
    canonicalize o v = .ok (arranged o v) := by
  rw [canonicalize, Algebra.walk_eq_fold, fold_canonicalAlgebra hv hkeys]

/-- Well-formed trees have a canonical order. -/
theorem canonicalize_eq_ok (o : SortOptions) {v : Value} (hv : v.WellFormed) :
    canonicalize o v = .ok (arranged o v) :=
  canonicalize_of_comparesKeys hv.printable hv.comparesKeys

/-! ### What keeps the keys from being compared -/

theorem compares_of_memberKey {k : Text} {l : List Nat} (h : memberKey o.keyOrder k = .ok l) : o.Compares k := by
  intro _ horder
  rw [horder, memberKey] at h
  cases hencode : Utf16.encode k with
  | error e =>
    rw [hencode] at h
    cases h
  | ok bs => exact Utf16.surrogateFree_of_encode hencode

theorem compares_of_sortMembers {members sorted : List (Text × Value)} (h : sortMembers o members = .ok sorted) :
    ∀ m ∈ members, o.Compares m.1 := by
  intro m hm hsort
  rw [sortMembers, if_pos hsort, sortByKey] at h
  obtain ⟨keyed, hkeyed, -⟩ := bind_eq_ok_iff.mp h
  obtain ⟨hlength, hplaces⟩ := places_of_mapM hkeyed
  obtain ⟨k, hk⟩ := List.mem_iff_getElem?.mp hm
  have hlt := (List.getElem?_eq_some_iff.mp hk).1
  obtain ⟨l, hl, -⟩ := bind_eq_ok_iff.mp (hplaces k m _ hk (List.getElem?_eq_getElem (hlength ▸ hlt)))
  exact compares_of_memberKey hl hsort

theorem comparesKeys_of_fold {v u : Value} (h : (canonicalAlgebra o).fold v = .ok u) : o.ComparesKeys v := by
  induction v using Value.childInduction generalizing u with
  | array items ih =>
    rw [Algebra.fold] at h
    obtain ⟨us, hus, -⟩ := bind_eq_ok_iff.mp h
    rintro members (_ | ⟨hmem, hmembers⟩) m hm
    obtain ⟨a, ha⟩ := Algebra.fold_of_foldItems _ hus _ hmem
    exact ih _ hmem ha members hmembers m hm
  | object members ih =>
    rw [Algebra.fold] at h
    obtain ⟨ms, hms, h⟩ := bind_eq_ok_iff.mp h
    obtain ⟨sorted, hsorted, -⟩ := bind_eq_ok_iff.mp h
    rintro members' (_ | _ | ⟨hmem, hmembers⟩) m hm
    · -- The walk leaves the keys of an object as they are.
      have hkey : m.1 ∈ ms.map Prod.fst := Algebra.keys_foldMembers _ hms ▸ List.mem_map_of_mem hm
      obtain ⟨n, hn, hkey⟩ := List.mem_map.mp hkey
      exact hkey ▸ compares_of_sortMembers hsorted n hn
    · obtain ⟨a, ha⟩ := Algebra.fold_of_foldMembers _ hms _ hmem
      exact ih _ hmem ha members' hmembers m hm
  | _ => rintro members ⟨⟩

/-- A tree that can be printed is put in order exactly if its keys can be compared. -/
theorem canonicalize_isOk_iff {v : Value} (hv : v.Printable) :
    (∃ u, canonicalize o v = .ok u) ↔ o.ComparesKeys v := by
  constructor
  · rintro ⟨u, hu⟩
    rw [canonicalize, Algebra.walk_eq_fold] at hu
    exact comparesKeys_of_fold hu
  · intro hkeys
    exact ⟨_, canonicalize_of_comparesKeys hv hkeys⟩

/-! ### Sorted at every level -/

theorem sortedEverywhere_array {items : List Value} :
    SortedEverywhere o (.array items)
      ↔ ItemsSorted o items ∧ ∀ v ∈ items, SortedEverywhere o v := by
  have hall : AllSorted o items ↔ ∀ v ∈ items, SortedEverywhere o v := by
    induction items with
    | nil => simp [AllSorted]
    | cons v vs ih => simp [AllSorted, ih]
  rw [SortedEverywhere, hall]

theorem sortedEverywhere_object {members : List (Text × Value)} :
    SortedEverywhere o (.object members)
      ↔ KeysSorted o members ∧ ∀ m ∈ members, SortedEverywhere o m.2 := by
  have hall : AllMembersSorted o members ↔ ∀ m ∈ members, SortedEverywhere o m.2 := by
    induction members with
    | nil => simp [AllMembersSorted]
    | cons m ms ih => simp [AllMembersSorted, ih]
  rw [SortedEverywhere, hall]

theorem totalOn_members (order : KeyOrder) :
    TotalOn (fun _ : Text × Value => True) fun a b => order.le a.1 b.1 :=
  order.totalOn_le.comap fun _ h => h

theorem keysSorted_arrangeMembers (o : SortOptions) (members : List (Text × Value)) :
    KeysSorted o (arrangeMembers o members) := by
  intro hsort
  rw [arrangeMembers, if_pos hsort]
  exact (totalOn_members o.keyOrder).pairwise_mergeSort fun _ _ => trivial

theorem arrangeMembers_of_keysSorted {members : List (Text × Value)} (h : KeysSorted o members) :
    arrangeMembers o members = members := by
  unfold arrangeMembers
  split
  · rename_i hsort
    exact List.mergeSort_of_pairwise (h hsort)
  · rfl

theorem itemsSorted_arrangeItems {items : List Value} (h : ∀ v ∈ items, v.WellFormed) :
    ItemsSorted o (arrangeItems o items) := by
  intro member hmember
  have hmem := fun v hv => h v ((arrangeItems_perm o items).mem_iff.mp hv)
  rw [arrangeItems, hmember] at hmem ⊢
  refine ((totalOn_elementKey member).pairwise_mergeSort h).imp_of_mem ?_
  intro a b ha hb hle
  exact (itemLe_iff member (hmem a ha) (hmem b hb)).mpr hle

theorem arrangeItems_of_itemsSorted {items : List Value} (hwf : ∀ v ∈ items, v.WellFormed)
    (h : ItemsSorted o items) : arrangeItems o items = items := by
  unfold arrangeItems
  split
  · rename_i member hmember
    refine List.mergeSort_of_pairwise ((h member hmember).imp_of_mem ?_)
    intro a b ha hb hle
    exact (itemLe_iff member (hwf a ha) (hwf b hb)).mp hle
  · rfl

theorem sortedEverywhere_arranged {v : Value} (hv : v.WellFormed) :
    SortedEverywhere o (arranged o v) := by
  induction v using Value.childInduction with
  | null => simp [SortedEverywhere]
  | bool b => simp [SortedEverywhere]
  | number t => simp [SortedEverywhere]
  | string t => simp [SortedEverywhere]
  | array items ih =>
    rw [Value.wellFormed_array] at hv
    have hitems : ∀ u ∈ items.map (arranged o), u.WellFormed := by
      intro u hu
      obtain ⟨v, hmem, rfl⟩ := List.mem_map.mp hu
      exact wellFormed_arranged (hv v hmem)
    rw [arranged_array, sortedEverywhere_array]
    refine ⟨itemsSorted_arrangeItems hitems, ?_⟩
    intro u hu
    obtain ⟨v, hmem, rfl⟩ := exists_of_mem_arrangeItems hu
    exact ih v hmem (hv v hmem)
  | object members ih =>
    rw [Value.wellFormed_object] at hv
    rw [arranged_object, sortedEverywhere_object]
    refine ⟨keysSorted_arrangeMembers o _, ?_⟩
    intro n hn
    obtain ⟨m, hm, rfl⟩ := exists_of_mem_arrangeMembers hn
    exact ih m hm (hv m hm).2
  | foreign d => exact hv.elim

/-- A tree that is sorted at every level is left alone. -/
theorem arranged_of_sortedEverywhere {v : Value} (hv : v.WellFormed) (h : SortedEverywhere o v) :
    arranged o v = v := by
  induction v using Value.childInduction with
  | null => simp
  | bool b => simp
  | number t => simp
  | string t => simp
  | array items ih =>
    rw [Value.wellFormed_array] at hv
    rw [sortedEverywhere_array] at h
    -- The children are left alone, and then there is nothing to sort.
    have hitems : items.map (arranged o) = items := by
      rw [List.map_congr_left (g := id) fun v hmem => ih v hmem (hv v hmem) (h.2 v hmem),
        List.map_id]
    rw [arranged_array, hitems, arrangeItems_of_itemsSorted hv h.1]
  | object members ih =>
    rw [Value.wellFormed_object] at hv
    rw [sortedEverywhere_object] at h
    have hmembers : (members.map fun m => (m.1, arranged o m.2)) = members := by
      rw [List.map_congr_left (g := id), List.map_id]
      intro m hm
      rw [ih m hm (hv m hm).2 (h.2 m hm)]
      rfl
    rw [arranged_object, hmembers, arrangeMembers_of_keysSorted h.1]
  | foreign d => simp

/-- Arranging twice is arranging once. -/
theorem arranged_arranged {v : Value} (hv : v.WellFormed) :
    arranged o (arranged o v) = arranged o v :=
  arranged_of_sortedEverywhere (wellFormed_arranged hv) (sortedEverywhere_arranged hv)

/-! ### Number texts -/

theorem arrangeMembers_map (o : SortOptions) (g : Value → Value) (members : List (Text × Value)) :
    arrangeMembers o (members.map fun m => (m.1, g m.2))
      = (arrangeMembers o members).map fun m => (m.1, g m.2) := by
  unfold arrangeMembers
  split
  · refine (List.map_mergeSort ?_).symm
    intro a _ b _
    rfl
  · rfl

/-- Where arrays keep their order, so do trees whose number texts are changed. -/
theorem arranged_mapNumbers (ho : o.arraysBy = none) (f : Text → Text) (v : Value) :
    arranged o (v.mapNumbers f) = (arranged o v).mapNumbers f := by
  have hitems : ∀ items, arrangeItems o items = items := by
    intro items
    rw [arrangeItems, ho]
  induction v using Value.childInduction with
  | null => simp
  | bool b => simp
  | number t => simp
  | string t => simp
  | array items ih =>
    rw [Value.mapNumbers_array, arranged_array, arranged_array, Value.mapNumbers_array, hitems,
      hitems, List.map_map,
      List.map_map]
    exact congrArg Value.array (List.map_congr_left ih)
  | object members ih =>
    rw [Value.mapNumbers_object, arranged_object, arranged_object, Value.mapNumbers_object,
      ← arrangeMembers_map,
      List.map_map, List.map_map]
    congr 2
    refine List.map_congr_left fun m hm => ?_
    exact congrArg (Prod.mk m.1) (ih m hm)
  | foreign d => simp

end CanonJson
