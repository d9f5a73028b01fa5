import CanonJson.Proofs.Order.Equivalence
import CanonJson.Proofs.Order.Respelled
import CanonJson.Proofs.Plain.Collapse
import Mathlib.Data.List.Nodup
/-!
# Canonical order keeps the meaning

Readers see a tree as plain data, in which a table has no order and of a repeated key only the last value
counts. Two data agree if they look the same to such readers. Sorting members keeps the order of those with
equal keys, so that the last value of a key is the last one before and after: the canonical tree stands for
data that agree with those of the tree, as long as arrays keep their order.
-/

namespace CanonJson

/-- The data are the same to a reader: the same scalars, lists that agree item by item, and tables that hold
the same keys, each once, with values that agree. -/
inductive Datum.Agrees : Datum → Datum → Prop where
  | scalar (s : Scalar) : Agrees (.scalar s) (.scalar s)
  | list (as bs : List Datum) (length : as.length = bs.length)
      (items : ∀ (i : Nat) a b, as[i]? = some a → bs[i]? = some b → Agrees a b) : Agrees (.list as) (.list bs)
  | table (as bs : List (Datum × Datum)) (once : (as.map Prod.fst).Nodup)
      (once' : (bs.map Prod.fst).Nodup) (keys : ∀ k, k ∈ as.map Prod.fst ↔ k ∈ bs.map Prod.fst)
      (values : ∀ k a b, (k, a) ∈ as → (k, b) ∈ bs → Agrees a b) : Agrees (.table as) (.table bs)

namespace Value

/-! ### Trees that have plain data -/

/-- The tree can be converted: each of its numbers has a datum. -/
def Convertible (v : Value) : Prop :=
  ∃ d, v.toDatum = .ok d

/-- The plain data of a tree, for trees that have some. -/
def plain (v : Value) : Datum :=
  match v.toDatum with
  | .ok d => d
  | .error _ => .scalar .none

theorem plain_of_toDatum {v : Value} {d : Datum} (h : v.toDatum = .ok d) : v.plain = d := by
  rw [plain, h]

theorem Convertible.toDatum_eq {v : Value} (hv : v.Convertible) : v.toDatum = .ok v.plain := by
  obtain ⟨d, hd⟩ := hv
  rw [plain_of_toDatum hd, hd]

theorem Convertible.fold_eq {v : Value} (hv : v.Convertible) : plainAlgebra.fold v = .ok v.plain := by
  rw [← Algebra.walk_eq_fold]
  exact hv.toDatum_eq

/-- The entries of a table that was filled with the given ones. -/
def tableEntries (entries : List (Text × Datum)) : List (Datum × Datum) :=
  (collapse entries).map fun e => (.scalar (.text e.1), e.2)

theorem toDatum_array {items : List Value} (h : ∀ v ∈ items, v.Convertible) :
    (array items).toDatum = .ok (.list (items.map plain)) := by
  rw [toDatum, Algebra.walk_eq_fold, Algebra.fold,
    Algebra.foldItems_eq_ok plainAlgebra fun v hv => (h v hv).fold_eq]
  rfl

theorem toDatum_object {members : List (Text × Value)} (h : ∀ m ∈ members, m.2.Convertible) :
    (object members).toDatum = .ok (.table (tableEntries (members.map fun m => (m.1, m.2.plain)))) := by
  rw [toDatum, Algebra.walk_eq_fold, Algebra.fold,
    Algebra.foldMembers_eq_ok plainAlgebra fun m hm => (h m hm).fold_eq]
  rfl

theorem Convertible.items {items : List Value} (h : (array items).Convertible) :
    ∀ v ∈ items, v.Convertible := by
  obtain ⟨d, hd⟩ := h
  rw [toDatum, Algebra.walk_eq_fold, Algebra.fold] at hd
  obtain ⟨ds, hds, -⟩ := bind_eq_ok_iff.mp hd
  intro v hv
  obtain ⟨e, he⟩ := Algebra.fold_of_foldItems _ hds v hv
  exact ⟨e, by rw [toDatum, Algebra.walk_eq_fold, he]⟩

theorem Convertible.members {members : List (Text × Value)} (h : (object members).Convertible) :
    ∀ m ∈ members, m.2.Convertible := by
  obtain ⟨d, hd⟩ := h
  rw [toDatum, Algebra.walk_eq_fold, Algebra.fold] at hd
  obtain ⟨ds, hds, -⟩ := bind_eq_ok_iff.mp hd
  intro m hm
  obtain ⟨e, he⟩ := Algebra.fold_of_foldMembers _ hds m hm
  exact ⟨e, by rw [toDatum, Algebra.walk_eq_fold, he]⟩

theorem Convertible.of_occurs {u v : Value} (hv : v.Convertible) (h : Occurs u v) : u.Convertible := by
  induction h with
  | self => exact hv
  | item hmem _ ih => exact ih (hv.items _ hmem)
  | member hm _ ih => exact ih (hv.members _ hm)

theorem convertible_of_fold {v : Value} {d : Datum} (h : plainAlgebra.fold v = .ok d) : v.Convertible :=
  ⟨d, (Algebra.walk_eq_fold plainAlgebra v).trans h⟩

/-- A tree without foreign nodes is converted if its numbers are. -/
theorem convertible_of_numbers {v : Value} (hforeign : ∀ d, ¬ Occurs (.foreign d) v)
    (hnumbers : ∀ t, Occurs (.number t) v → ∃ d, numberDatum t = .ok d) : v.Convertible := by
  induction v using childInduction with
  | null => exact convertible_of_fold rfl
  | bool b => exact convertible_of_fold rfl
  | number t =>
    obtain ⟨d, hd⟩ := hnumbers t .self
    exact convertible_of_fold (v := .number t) hd
  | string t => exact convertible_of_fold rfl
  | array items ih =>
    have hitems : ∀ v ∈ items, v.Convertible := fun v hv =>
      ih v hv (fun d hd => hforeign d (.item hv hd)) fun t ht => hnumbers t (.item hv ht)
    exact ⟨_, toDatum_array hitems⟩
  | object members ih =>
    have hmembers : ∀ m ∈ members, m.2.Convertible := fun m hm =>
      ih m hm (fun d hd => hforeign d (.member hm hd)) fun t ht => hnumbers t (.member hm ht)
    exact ⟨_, toDatum_object hmembers⟩
  | foreign d => exact absurd .self (hforeign d)

/-! ### Tables that agree -/

section Tables

variable {as bs : List (Text × Datum)}

theorem mem_tableEntries {k d : Datum} :
    (k, d) ∈ tableEntries as ↔ ∃ key, k = .scalar (.text key) ∧ lastUnder key as = some d := by
  simp only [tableEntries, List.mem_map, Prod.exists, Prod.mk.injEq, mem_collapse]
  constructor
  · rintro ⟨key, d, h, rfl, rfl⟩
    exact ⟨key, rfl, h⟩
  · rintro ⟨key, rfl, h⟩
    exact ⟨key, d, h, rfl, rfl⟩

theorem nodup_keys_tableEntries (as : List (Text × Datum)) : ((tableEntries as).map Prod.fst).Nodup := by
  have hkeys : (tableEntries as).map Prod.fst
      = ((collapse as).map Prod.fst).map fun key => Datum.scalar (.text key) := by
    simp [tableEntries]
  rw [hkeys]
  refine List.Nodup.map ?_ (nodup_keys_collapse as)
  intro key key' h
  exact Scalar.text.inj (Datum.scalar.inj h)

theorem mem_keys_tableEntries {k : Datum} :
    k ∈ (tableEntries as).map Prod.fst
      ↔ ∃ key, k = .scalar (.text key) ∧ (lastUnder key as).isSome = true := by
  rw [List.mem_map]
  constructor
  · rintro ⟨⟨k, d⟩, hmem, rfl⟩
    obtain ⟨key, hkey, hlast⟩ := mem_tableEntries.mp hmem
    exact ⟨key, hkey, by rw [hlast]; rfl⟩
  · rintro ⟨key, hkey, hsome⟩
    obtain ⟨d, hlast⟩ := Option.isSome_iff_exists.mp hsome
    exact ⟨(k, d), mem_tableEntries.mpr ⟨key, hkey, hlast⟩, rfl⟩

theorem isSome_eq_of_rel {α β : Type} {r : α → β → Prop} {x : Option α} {y : Option β}
    (h : Option.Rel r x y) : x.isSome = y.isSome := by
  cases h <;> rfl

/-- Tables agree if they were filled so that the last values of each key agree. -/
theorem agrees_tableEntries
    (h : ∀ key, Option.Rel Datum.Agrees (lastUnder key as) (lastUnder key bs)) :
    Datum.Agrees (.table (tableEntries as)) (.table (tableEntries bs)) := by
  have hsome : ∀ key, (lastUnder key as).isSome = (lastUnder key bs).isSome :=
    fun key => isSome_eq_of_rel (h key)
  refine .table _ _ (nodup_keys_tableEntries as) (nodup_keys_tableEntries bs) ?_ ?_
  · intro k
    simp only [mem_keys_tableEntries, hsome]
  · intro k a b ha hb
    obtain ⟨key, hkey, hlast⟩ := mem_tableEntries.mp ha
    obtain ⟨key', hkey', hlast'⟩ := mem_tableEntries.mp hb
    obtain rfl := Scalar.text.inj (Datum.scalar.inj (hkey.symm.trans hkey'))
    have hrel := h key
    rw [hlast, hlast'] at hrel
    cases hrel with
    | some hab => exact hab

end Tables

/-! ### Canonical trees -/

theorem exists_scalar_of_numberDatum {t : Text} {d : Datum} (h : numberDatum t = .ok d) :
    ∃ s, d = .scalar s := by
  unfold numberDatum at h
  split at h
  · obtain ⟨n, -, h⟩ := bind_eq_ok_iff.mp h
    exact ⟨.int n, (Except.ok.inj h).symm⟩
  · obtain ⟨x, -, h⟩ := bind_eq_ok_iff.mp h
    exact ⟨.decimal x, (Except.ok.inj h).symm⟩

theorem lastUnder_arrangeMembers (o : SortOptions) (key : Text) (members : List (Text × Value)) :
    lastUnder key (arrangeMembers o members) = lastUnder key members := by
  unfold lastUnder
  rw [filter_arrangeMembers]

/-- The value that a reader finds under a key of the canonical tree is the canonical tree of the one that was
found there before. -/
theorem lastUnder_arranged (o : SortOptions) (key : Text) (members : List (Text × Value)) :
    lastUnder key (arrangeMembers o (members.map fun m => (m.1, arranged o m.2)))
      = (lastUnder key members).map (arranged o) := by
  rw [lastUnder_arrangeMembers, lastUnder_map]

/-- The trees have plain data, and these agree. -/
def ReadAlike (v u : Value) : Prop :=
  ∃ d e, v.toDatum = .ok d ∧ u.toDatum = .ok e ∧ d.Agrees e

theorem readAlike_of_scalar {v : Value} {s : Scalar} (h : v.toDatum = .ok (.scalar s)) : ReadAlike v v :=
  ⟨_, _, h, h, .scalar s⟩

theorem ReadAlike.convertible {v u : Value} (h : ReadAlike v u) : u.Convertible := by
  obtain ⟨-, e, -, he, -⟩ := h
  exact ⟨e, he⟩

theorem ReadAlike.agrees {v u : Value} (h : ReadAlike v u) : v.plain.Agrees u.plain := by
  obtain ⟨d, e, hd, he, hagrees⟩ := h
  rwa [plain_of_toDatum hd, plain_of_toDatum he]

theorem readAlike_array {items : List Value} {f : Value → Value} (hitems : ∀ v ∈ items, v.Convertible)
    (h : ∀ v ∈ items, ReadAlike v (f v)) : ReadAlike (array items) (array (items.map f)) := by
  have himages : ∀ u ∈ items.map f, u.Convertible := by
    intro u hu
    obtain ⟨v, hv, rfl⟩ := List.mem_map.mp hu
    exact (h v hv).convertible
  refine ⟨_, _, toDatum_array hitems, toDatum_array himages, .list _ _ (by simp) ?_⟩
  intro i a b ha hb
  rw [List.getElem?_map, Option.map_eq_some_iff] at ha
  obtain ⟨v, hv, rfl⟩ := ha
  rw [List.getElem?_map, List.getElem?_map, hv] at hb
  obtain rfl := Option.some.inj hb
  exact (h v (List.mem_of_getElem? hv)).agrees

theorem readAlike_object {members members' : List (Text × Value)} {f : Value → Value}
    (hmembers : ∀ m ∈ members, m.2.Convertible) (hmembers' : ∀ m ∈ members', m.2.Convertible)
    (hlast : ∀ key, lastUnder key members' = (lastUnder key members).map f)
    (h : ∀ m ∈ members, ReadAlike m.2 (f m.2)) : ReadAlike (object members) (object members') := by
  refine ⟨_, _, toDatum_object hmembers, toDatum_object hmembers', agrees_tableEntries ?_⟩
  intro key
  rw [lastUnder_map, lastUnder_map, hlast]
  cases hfound : lastUnder key members with
  | none => exact .none
  | some u => exact .some (h (key, u) (mem_of_lastUnder hfound)).agrees

theorem readAlike_arranged {o : SortOptions} (ho : o.arraysBy = none) {v : Value} (hv : v.Convertible) :
    ReadAlike v (arranged o v) := by
  induction v using childInduction with
  | null =>
    rw [arranged_null]
    exact readAlike_of_scalar (Algebra.walk_eq_fold ..)
  | bool b =>
    rw [arranged_bool]
    exact readAlike_of_scalar (Algebra.walk_eq_fold ..)
  | number t =>
    rw [arranged_number]
    obtain ⟨d, hd⟩ := hv
    have hnumber : numberDatum t = .ok d := by
      rwa [toDatum, Algebra.walk_eq_fold] at hd
    obtain ⟨s, rfl⟩ := exists_scalar_of_numberDatum hnumber
    exact readAlike_of_scalar hd
  | string t =>
    rw [arranged_string]
    exact readAlike_of_scalar (Algebra.walk_eq_fold ..)
  | array items ih =>
    have hitems : arrangeItems o (items.map (arranged o)) = items.map (arranged o) := by
      rw [arrangeItems, ho]
    rw [arranged_array, hitems]
    exact readAlike_array hv.items fun u hu => ih u hu (hv.items u hu)
  | object members ih =>
    have halike : ∀ m ∈ members, ReadAlike m.2 (arranged o m.2) := fun m hm => ih m hm (hv.members m hm)
    rw [arranged_object]
    refine readAlike_object hv.members ?_ (fun key => lastUnder_arranged o key members) halike
    intro n hn
    obtain ⟨m, hm, rfl⟩ := exists_of_mem_arrangeMembers hn
    exact (halike m hm).convertible
  | foreign d =>
    obtain ⟨e, he⟩ := hv
    rw [toDatum, Algebra.walk_eq_fold] at he
    cases he

end Value

open Value

/-- Canonical order keeps what a document means to its readers, as long as arrays keep their order: if a tree
has plain data then so has its canonical tree, and the two agree. In particular a reader who looks for a key in
any of the objects, and takes the last value that it has there, finds data that agree, or nothing in both. -/
theorem toDatum_canonicalize_agrees (o : SortOptions) (ho : o.arraysBy = none) (v : Value)
    (hv : v.WellFormed) (d : Datum) (hd : v.toDatum = .ok d) :
    ∃ c e, canonicalize o v = .ok c ∧ c.toDatum = .ok e ∧ d.Agrees e
      ∧ ∀ members, Occurs (.object members) v → ∃ members', Occurs (.object members') c
        ∧ canonicalize o (.object members) = .ok (.object members')
        ∧ ∀ key, Option.Rel ReadAlike (lastUnder key members) (lastUnder key members') := by
  have hconvertible : v.Convertible := ⟨d, hd⟩
  obtain ⟨d', e, hd', he, hagrees⟩ := readAlike_arranged ho hconvertible
  obtain rfl := Except.ok.inj (hd.symm.trans hd')
  refine ⟨arranged o v, e, canonicalize_eq_ok o hv, he, hagrees, ?_⟩
  intro members hoccurs
  have harranged := hoccurs.arranged (o := o)
  have hcanonical := canonicalize_eq_ok o (hv.of_occurs hoccurs)
  rw [arranged_object] at harranged hcanonical
  refine ⟨_, harranged, hcanonical, fun key => ?_⟩
  rw [lastUnder_arranged]
  cases hfound : lastUnder key members with
  | none => exact .none
  | some u =>
    have hmember := (hconvertible.of_occurs hoccurs).members _ (mem_of_lastUnder hfound)
    exact .some (readAlike_arranged ho hmember)

/-- The later of two members with one key moves in front of another member, and counts before and after. -/
theorem toDatum_canonicalize_agrees_repeated :
    let a : Text := Text.ofChars ['a']
    let b : Text := Text.ofChars ['b']
    let one : Text := Text.ofChars ['1', '.', '5', '0']
    let v : Value := .object [(b, .null), (a, .array [.number one]), (b, .object [(b, .bool true), (a, .null)])]
    let d : Datum := .table [(.scalar (.text b), .table [(.scalar (.text b), .scalar (.bool true)),
      (.scalar (.text a), .scalar .none)]), (.scalar (.text a), .list [.scalar (.decimal (.finite false 150 (-2)))])]
    v.WellFormed ∧ v.toDatum = .ok d
      ∧ ∃ c e, canonicalize .rfc8785 v = .ok c ∧ c.toDatum = .ok e ∧ d.Agrees e := by
  intro a b one v d
  have ha : a.SurrogateFree := by decide
  have hb : b.SurrogateFree := by decide
  have hone : isNumeral one = true := by decide
  have hv : v.WellFormed :=
    ⟨hb, trivial, ha, ⟨hone, trivial⟩, hb, ⟨hb, trivial, ha, trivial, trivial⟩, trivial⟩
  have hd : v.toDatum = .ok d := by
    rw [toDatum, Algebra.walk_eq_fold]
    rfl
  obtain ⟨c, e, hc, he, hagrees, -⟩ := toDatum_canonicalize_agrees .rfc8785 rfl v hv d hd
  exact ⟨hv, hd, c, e, hc, he, hagrees⟩

end CanonJson
