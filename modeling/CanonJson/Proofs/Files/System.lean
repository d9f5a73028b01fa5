import CanonJson.Files.System
import CanonJson.Proofs.Outcome
/-!
# Files by their places

What the operations on a file system do to the file at each place, and what a path leads to. A path
leads through directories only, so where it ends does not depend on what the files hold, nor on files
that lie where nothing was: it ends at the same place.
-/

namespace CanonJson

/-- Whether a problem is one of the file system itself. -/
def FileProblem.isInputOutput : FileProblem → Bool
  | .notFound _ | .isDirectory _ | .notDirectory _ | .nameTooLong _ | .noTemporaryName | .replaceFailed => true
  | .embeddedNull | .workers _ | .document _ => false

namespace FileSystem

section Lookup

variable (fs : FileSystem) (place q : List Text)

theorem fileAt?_eq_none_iff : fs.fileAt? place = none ↔ ∀ e ∈ fs.files, e.1 ≠ place := by
  simp [fileAt?]

theorem fileAt?_modifyFile (change : File → File) :
    (fs.modifyFile place change).fileAt? q
      = if q = place then (fs.fileAt? q).map change else fs.fileAt? q := by
  have hkey : ∀ e : List Text × File, (if e.1 = place then (place, change e.2) else e).1 = e.1 := by
    intro e
    split
    · rename_i he
      exact he.symm
    · rfl
  have hfind : (fs.modifyFile place change).files.find? (fun e => e.1 = q)
      = (fs.files.find? fun e => e.1 = q).map fun e => if e.1 = place then (place, change e.2) else e := by
    rw [modifyFile, List.find?_map]
    congr 2
    funext e
    exact congrArg (fun k : List Text => decide (k = q)) (hkey e)
  rw [fileAt?, hfind, fileAt?]
  cases hq : fs.files.find? fun e => e.1 = q with
  | none => simp
  | some e =>
    have he : e.1 = q := by simpa using List.find?_some hq
    by_cases hplace : q = place
    · simp [he, hplace]
    · simp [he, hplace]

theorem fileAt?_setFile (f : File) :
    (fs.setFile place f).fileAt? q = if q = place then some f else fs.fileAt? q := by
  rw [setFile]
  split
  · rename_i hsome
    rw [fileAt?_modifyFile]
    by_cases hq : q = place
    · obtain ⟨old, hold⟩ := Option.isSome_iff_exists.mp hsome
      simp [hq, hold]
    · simp [hq]
  · rename_i hnone
    rw [Bool.not_eq_true, Option.isSome_eq_false_iff, Option.isNone_iff_eq_none] at hnone
    rw [fileAt?, List.find?_append, fileAt?]
    by_cases hq : q = place
    · subst hq
      rw [fileAt?, Option.map_eq_none_iff] at hnone
      simp [hnone]
    · have hne : place ≠ q := fun h => hq h.symm
      simp [hq, hne]

theorem fileAt?_eraseFile : (fs.eraseFile place).fileAt? q = if q = place then none else fs.fileAt? q := by
  rw [fileAt?, eraseFile, List.find?_filter, fileAt?]
  by_cases hq : q = place
  · subst hq
    simp
  · rw [if_neg hq]
    congr 2
    funext e
    by_cases he : e.1 = q
    · simp [he, hq]
    · simp [he]

theorem fileAt?_moveFile {f : File} (h : fs.fileAt? place = some f) (target : List Text) :
    (fs.moveFile place target).fileAt? q
      = if q = target then some f else if q = place then none else fs.fileAt? q := by
  rw [moveFile, h]
  simp only [fileAt?_setFile, fileAt?_eraseFile]

/-- The places of all files, in order. -/
def places : List (List Text) :=
  fs.files.map Prod.fst

theorem places_modifyFile (change : File → File) :
    (fs.modifyFile place change).places = fs.places := by
  rw [places, places, modifyFile, List.map_map]
  apply List.map_congr_left
  intro e _
  rw [Function.comp_apply]
  split
  · rename_i he
    exact he.symm
  · rfl

theorem places_setFile {f : File} (h : (fs.fileAt? place).isSome) :
    (fs.setFile place f).places = fs.places := by
  rw [setFile, if_pos h, places_modifyFile]

@[simp] theorem home_setFile (f : File) : (fs.setFile place f).home = fs.home := by
  rw [setFile]
  split
  · rfl
  · rfl

@[simp] theorem directories_setFile (f : File) :
    (fs.setFile place f).directories = fs.directories := by
  rw [setFile]
  split
  · rfl
  · rfl

end Lookup

/-! ### Where a path leads -/

section Paths

variable {fs fs' : FileSystem} {p : Path} {q : List Text} {f : File}

theorem nodeAt_of_some (h : fs.fileAt? q = some f) : fs.nodeAt q = .file q f := by
  rw [nodeAt, h]

theorem nodeAt_of_none (h : fs.fileAt? q = none) :
    fs.nodeAt q = .directory ∨ fs.nodeAt q = .missing := by
  rw [nodeAt, h]
  by_cases hdirectory : (q.isPrefixOf fs.home || fs.directories.contains q) = true
  · exact .inl (if_pos hdirectory)
  · exact .inr (if_neg hdirectory)

theorem nodeAt_eq_directory_iff : fs.nodeAt q = .directory
    ↔ fs.fileAt? q = none ∧ (q.isPrefixOf fs.home || fs.directories.contains q) = true := by
  rw [nodeAt]
  generalize (q.isPrefixOf fs.home || fs.directories.contains q) = isDirectory
  cases fs.fileAt? q with
  | some f => simp
  | none => cases isDirectory <;> simp

theorem nodeAt_eq_missing_iff : fs.nodeAt q = .missing
    ↔ fs.fileAt? q = none ∧ (q.isPrefixOf fs.home || fs.directories.contains q) = false := by
  rw [nodeAt]
  generalize (q.isPrefixOf fs.home || fs.directories.contains q) = isDirectory
  cases fs.fileAt? q with
  | some f => simp
  | none => cases isDirectory <;> simp

theorem nodeFrom_eq_file {start parts : List Text} (h : fs.nodeFrom start parts = .file q f) :
    q = parts.foldl step start ∧ fs.fileAt? q = some f := by
  induction parts generalizing start with
  | nil =>
    rw [nodeFrom] at h
    cases hfile : fs.fileAt? start with
    | some g =>
      rw [nodeAt_of_some hfile] at h
      injection h with hq hg
      subst hq hg
      exact ⟨rfl, hfile⟩
    | none =>
      rcases nodeAt_of_none hfile with hnode | hnode
      · rw [hnode] at h
        cases h
      · rw [hnode] at h
        cases h
  | cons part rest ih =>
    rw [nodeFrom] at h
    split at h
    · split at h
      · cases h
      · exact ih h
    · cases h
    · rename_i _ hnode
      exact absurd h (hnode q f)

theorem read_eq_ok_iff :
    fs.read p = .ok (q, f) ↔ checkName p = .ok () ∧ fs.node p = .file q f := by
  rw [read, bind_eq_ok_iff]
  constructor
  · intro h
    obtain ⟨⟨⟩, hname, h⟩ := h
    refine ⟨hname, ?_⟩
    cases hnode : fs.node p with
    | file q' f' =>
      rw [hnode] at h
      injection h with h
      injection h with hq hf
      rw [hq, hf]
    | directory | missing | blocked | nameTooLong =>
      rw [hnode] at h
      cases h
  · intro h
    exact ⟨(), h.1, by rw [h.2]; rfl⟩

/-- A path that can be read leads to its place, and what is read is the file there. -/
theorem place_of_read (h : fs.read p = .ok (q, f)) : q = fs.place p ∧ fs.fileAt? q = some f :=
  nodeFrom_eq_file (read_eq_ok_iff.mp h).2

/-- A name that can be a file's is refused by the file system only. -/
theorem isInputOutput_of_read (hname : checkName p = .ok ()) {e : FileProblem} (h : fs.read p = .error e) :
    e.isInputOutput = true := by
  rw [read, hname, ok_bind] at h
  split at h
  · cases h
  all_goals
    obtain rfl := Except.error.inj h
    rfl

theorem read_of_checkName {e : FileProblem} (hname : checkName p = .error e) : fs.read p = .error e := by
  rw [read, hname, error_bind]

end Paths

/-! ### File systems that differ in their files only -/

/-- What was there is still there; there may be files where nothing was. -/
structure Grown (fs fs' : FileSystem) : Prop where
  home : fs'.home = fs.home
  directories : fs'.directories = fs.directories
  isSome_fileAt? : ∀ q, fs.nodeAt q ≠ .missing → (fs'.fileAt? q).isSome = (fs.fileAt? q).isSome

namespace Grown

variable {fs fs' : FileSystem} {p : Path} {q : List Text} {f : File} (h : Grown fs fs')

include h

theorem place_eq (p : Path) : fs'.place p = fs.place p := by
  rw [place, place, start, start, h.home]

theorem fileAt?_of_some (hq : fs.fileAt? q = some f) : ∃ f', fs'.fileAt? q = some f' := by
  have hnode : fs.nodeAt q ≠ .missing := by simp [nodeAt_of_some hq]
  rw [← Option.isSome_iff_exists, h.isSome_fileAt? q hnode, hq, Option.isSome_some]

theorem nodeAt_of_directory (hq : fs.nodeAt q = .directory) : fs'.nodeAt q = .directory := by
  have hsome := h.isSome_fileAt? q (by simp [hq])
  rw [nodeAt_eq_directory_iff] at hq ⊢
  rw [hq.1, Option.isSome_none, Option.isSome_eq_false_iff, Option.isNone_iff_eq_none] at hsome
  rw [h.home, h.directories]
  exact ⟨hsome, hq.2⟩

theorem nodeAt_ne_missing (hq : fs.nodeAt q ≠ .missing) : fs'.nodeAt q ≠ .missing := by
  cases hfile : fs.fileAt? q with
  | some f =>
    obtain ⟨f', hfile'⟩ := h.fileAt?_of_some hfile
    simp [nodeAt_of_some hfile']
  | none =>
    have hdirectory := (nodeAt_of_none hfile).resolve_right hq
    simp [h.nodeAt_of_directory hdirectory]

/-- Parts that lead to a file lead to the same place. -/
theorem nodeFrom_of_file {start parts : List Text} (hnode : fs.nodeFrom start parts = .file q f) :
    fs'.nodeFrom start parts = fs'.nodeAt q := by
  induction parts generalizing start with
  | nil => rw [nodeFrom, (nodeFrom_eq_file hnode).1, List.foldl_nil]
  | cons part rest ih =>
    rw [nodeFrom] at hnode ⊢
    split at hnode
    · rename_i hdirectory
      rw [h.nodeAt_of_directory hdirectory]
      split at hnode
      · cases hnode
      · rename_i hlength
        simp only [if_neg hlength]
        exact ih hnode
    · cases hnode
    · rename_i _ hfile
      exact absurd hnode (hfile q f)

theorem read_of_read (hread : fs.read p = .ok (q, f)) :
    ∃ f', fs'.fileAt? q = some f' ∧ fs'.read p = .ok (q, f') := by
  obtain ⟨hname, hnode⟩ := read_eq_ok_iff.mp hread
  obtain ⟨f', hfile'⟩ := h.fileAt?_of_some (place_of_read hread).2
  refine ⟨f', hfile', read_eq_ok_iff.mpr ⟨hname, ?_⟩⟩
  rw [node] at hnode ⊢
  rw [start, h.home, ← start, h.nodeFrom_of_file hnode]
  exact nodeAt_of_some hfile'

end Grown

/-- The same directories, and files at the same places. -/
structure SameShape (fs fs' : FileSystem) : Prop where
  home : fs'.home = fs.home
  directories : fs'.directories = fs.directories
  isSome_fileAt? : ∀ q, (fs'.fileAt? q).isSome = (fs.fileAt? q).isSome

namespace SameShape

variable {fs fs' : FileSystem} {p : Path} {q : List Text} {f : File} (h : SameShape fs fs')

include h

theorem grown : Grown fs fs' :=
  ⟨h.home, h.directories, fun q _ => h.isSome_fileAt? q⟩

theorem place_eq (p : Path) : fs'.place p = fs.place p :=
  h.grown.place_eq p

theorem nodeAt_eq_missing_iff (q : List Text) : fs'.nodeAt q = .missing ↔ fs.nodeAt q = .missing := by
  have hnone : fs'.fileAt? q = none ↔ fs.fileAt? q = none := by
    rw [← Option.not_isSome_iff_eq_none, ← Option.not_isSome_iff_eq_none, h.isSome_fileAt?]
  rw [FileSystem.nodeAt_eq_missing_iff, FileSystem.nodeAt_eq_missing_iff, hnone, h.home, h.directories]

theorem read_of_read (hread : fs.read p = .ok (q, f)) :
    ∃ f', fs'.fileAt? q = some f' ∧ fs'.read p = .ok (q, f') :=
  h.grown.read_of_read hread

end SameShape

end FileSystem

end CanonJson
