import CanonJson.Plain.Convert
import Mathlib.Data.List.Induction
/-!
# The last value of a key

A table that is filled entry by entry holds each key once, with the value of its last entry. So what a reader
finds under a key depends only on the entries with that key, and of these on the last.
-/

namespace CanonJson

variable {α β : Type}

/-- The value of the last entry with the given key. -/
def lastUnder (key : Text) (entries : List (Text × α)) : Option α :=
  (entries.filter fun e => e.1 = key).getLast?.map Prod.snd

/-! ### Looking up the last entry -/

@[simp] theorem lastUnder_nil (key : Text) : lastUnder key ([] : List (Text × α)) = none :=
  rfl

theorem lastUnder_concat (key : Text) (entries : List (Text × α)) (e : Text × α) :
    lastUnder key (entries ++ [e]) = if e.1 = key then some e.2 else lastUnder key entries := by
  unfold lastUnder
  by_cases h : e.1 = key <;> simp [h]

theorem lastUnder_map (f : α → β) (key : Text) (entries : List (Text × α)) :
    lastUnder key (entries.map fun e => (e.1, f e.2)) = (lastUnder key entries).map f := by
  simp [lastUnder, List.filter_map, Function.comp_def]

theorem mem_of_lastUnder {key : Text} {entries : List (Text × α)} {a : α}
    (h : lastUnder key entries = some a) : (key, a) ∈ entries := by
  obtain ⟨e, he, rfl⟩ := Option.map_eq_some_iff.mp h
  obtain ⟨hmem, hkey⟩ := List.mem_filter.mp (List.mem_of_getLast? he)
  rw [← of_decide_eq_true hkey]
  exact hmem

/-! ### One more entry -/

theorem insertEntry_of_mem {entries : List (Text × α)} {k : Text} (h : k ∈ entries.map Prod.fst) (v : α) :
    Datum.insertEntry (· == ·) entries k v = entries.map fun e => if e.1 = k then (e.1, v) else e := by
  obtain ⟨e, he, rfl⟩ := List.mem_map.mp h
  have hknown : (entries.any fun e' => e'.1 == e.1) = true := List.any_eq_true.mpr ⟨e, he, beq_self_eq_true _⟩
  simp only [Datum.insertEntry, hknown, if_true, beq_iff_eq]

theorem insertEntry_of_not_mem {entries : List (Text × α)} {k : Text} (h : k ∉ entries.map Prod.fst) (v : α) :
    Datum.insertEntry (· == ·) entries k v = entries ++ [(k, v)] := by
  refine if_neg fun hknown => h ?_
  obtain ⟨e, he, hek⟩ := List.any_eq_true.mp hknown
  exact List.mem_map.mpr ⟨e, he, eq_of_beq hek⟩

theorem mem_replaced {entries : List (Text × α)} {k key : Text} {v a : α} (h : k ∈ entries.map Prod.fst) :
    ((key, a) ∈ entries.map fun e => if e.1 = k then (e.1, v) else e)
      ↔ if key = k then a = v else (key, a) ∈ entries := by
  rw [List.mem_map]
  by_cases hkey : key = k
  · rw [if_pos hkey]
    constructor
    · rintro ⟨e, -, he⟩
      by_cases hek : e.1 = k
      · rw [if_pos hek] at he
        exact (Prod.mk.inj he).2.symm
      · rw [if_neg hek] at he
        exact absurd (by rw [he, hkey]) hek
    · rintro rfl
      obtain ⟨e, he, hek⟩ := List.mem_map.mp h
      exact ⟨e, he, by rw [if_pos hek, hek, hkey]⟩
  · rw [if_neg hkey]
    constructor
    · rintro ⟨e, hmem, he⟩
      by_cases hek : e.1 = k
      · rw [if_pos hek] at he
        exact absurd ((Prod.mk.inj he).1.symm.trans hek) hkey
      · rw [if_neg hek] at he
        rwa [← he]
    · intro hmem
      exact ⟨(key, a), hmem, if_neg hkey⟩

theorem mem_insertEntry {entries : List (Text × α)} {k key : Text} {v a : α} :
    (key, a) ∈ Datum.insertEntry (· == ·) entries k v
      ↔ if key = k then a = v else (key, a) ∈ entries := by
  by_cases h : k ∈ entries.map Prod.fst
  · rw [insertEntry_of_mem h, mem_replaced h]
  · rw [insertEntry_of_not_mem h, List.mem_append, List.mem_singleton, Prod.mk.injEq]
    by_cases hkey : key = k
    · have hfresh : (key, a) ∉ entries := fun hmem => h (List.mem_map.mpr ⟨_, hmem, hkey⟩)
      rw [or_iff_right hfresh, if_pos hkey, and_iff_right hkey]
    · simp only [hkey, false_and, or_false, if_false]

theorem keys_insertEntry (entries : List (Text × α)) (k : Text) (v : α) :
    (Datum.insertEntry (· == ·) entries k v).map Prod.fst
      = if k ∈ entries.map Prod.fst then entries.map Prod.fst else entries.map Prod.fst ++ [k] := by
  by_cases h : k ∈ entries.map Prod.fst
  · rw [insertEntry_of_mem h, if_pos h, List.map_map]
    refine List.map_congr_left fun e _ => ?_
    rw [Function.comp_apply, apply_ite Prod.fst, ite_self]
  · rw [insertEntry_of_not_mem h, if_neg h, List.map_append, List.map_singleton]

/-! ### Tables -/

theorem collapse_concat (entries : List (Text × α)) (e : Text × α) :
    collapse (entries ++ [e]) = Datum.insertEntry (· == ·) (collapse entries) e.1 e.2 := by
  simp [collapse]

/-- A table holds under each key the value of the last entry with that key. -/
theorem mem_collapse {entries : List (Text × α)} {key : Text} {a : α} :
    (key, a) ∈ collapse entries ↔ lastUnder key entries = some a := by
  induction entries using List.reverseRecOn with
  | nil => simp [collapse]
  | append_singleton entries e ih =>
    rw [collapse_concat, mem_insertEntry, lastUnder_concat, ih]
    by_cases h : e.1 = key
    · rw [if_pos h.symm, if_pos h, Option.some.injEq, eq_comm]
    · rw [if_neg (Ne.symm h), if_neg h]

/-- A table holds each key once. -/
theorem nodup_keys_collapse (entries : List (Text × α)) : ((collapse entries).map Prod.fst).Nodup := by
  induction entries using List.reverseRecOn with
  | nil => exact List.nodup_nil
  | append_singleton entries e ih =>
    rw [collapse_concat, keys_insertEntry]
    split
    · exact ih
    · rename_i hnew
      exact List.nodup_append.mpr ⟨ih, by simp, by simpa using fun k hk => (ne_of_mem_of_not_mem hk hnew)⟩

theorem collapse_of_nodup {entries : List (Text × α)} (h : (entries.map Prod.fst).Nodup) :
    collapse entries = entries := by
  induction entries using List.reverseRecOn with
  | nil => rfl
  | append_singleton entries e ih =>
    rw [List.map_append, List.map_singleton, List.nodup_append] at h
    obtain ⟨hnodup, -, hdisjoint⟩ := h
    rw [collapse_concat, ih hnodup]
    exact insertEntry_of_not_mem (fun hmem => hdisjoint _ hmem _ (List.mem_singleton.mpr rfl) rfl) e.2

theorem eraseDups_concat (keys : List Text) (k : Text) :
    (keys ++ [k]).eraseDups = if k ∈ keys then keys.eraseDups else keys.eraseDups ++ [k] := by
  rw [List.eraseDups_append]
  by_cases h : k ∈ keys <;> simp [h, List.removeAll, List.eraseDups_cons]

/-- Each key stands where it was first. -/
theorem keys_collapse (entries : List (Text × α)) :
    (collapse entries).map Prod.fst = (entries.map Prod.fst).eraseDups := by
  induction entries using List.reverseRecOn with
  | nil => rfl
  | append_singleton entries e ih =>
    rw [collapse_concat, keys_insertEntry, ih, List.map_append, List.map_singleton, eraseDups_concat]
    simp only [List.mem_eraseDups]

end CanonJson
