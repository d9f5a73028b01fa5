import CanonJson.Files.Replace
import CanonJson.Proofs.Files.System
/-!
# Replacing a file is all or nothing

Until it is renamed, the temporary file stands beside the files as they were, and erasing it brings
these back. Renaming it puts it in the place of the file and leaves nothing beside. So wherever the
steps stop, either the file is replaced or nothing has changed.
-/

namespace CanonJson

namespace FileSystem

/-- The files with one more beside them. -/
def withFile (fs : FileSystem) (temp : List Text) (f : File) : FileSystem :=
  { fs with files := fs.files ++ [(temp, f)] }

section Beside

variable {fs : FileSystem} {temp : List Text} (htemp : fs.fileAt? temp = none)

include htemp

theorem setFile_of_none (f : File) : fs.setFile temp f = fs.withFile temp f := by
  rw [setFile, htemp]
  rfl

theorem modifyFile_withFile (f : File) (change : File → File) :
    (fs.withFile temp f).modifyFile temp change = fs.withFile temp (change f) := by
  have hkept : fs.files.map (fun e => if e.1 = temp then (temp, change e.2) else e) = fs.files := by
    conv => rhs; rw [← List.map_id fs.files]
    apply List.map_congr_left
    intro e he
    exact if_neg ((fileAt?_eq_none_iff fs temp).mp htemp e he)
  simp [withFile, modifyFile, hkept]

theorem eraseFile_withFile (f : File) : (fs.withFile temp f).eraseFile temp = fs := by
  have hkept : fs.files.filter (fun e => e.1 ≠ temp) = fs.files := by
    apply List.filter_eq_self.mpr
    intro e he
    exact decide_eq_true ((fileAt?_eq_none_iff fs temp).mp htemp e he)
  simp only [withFile, eraseFile, List.filter_append, hkept]
  simp

theorem fileAt?_withFile (f : File) : (fs.withFile temp f).fileAt? temp = some f := by
  rw [← setFile_of_none htemp, fileAt?_setFile, if_pos rfl]

theorem moveFile_withFile (f : File) (place : List Text) :
    (fs.withFile temp f).moveFile temp place = fs.setFile place f := by
  rw [moveFile, fileAt?_withFile htemp]
  simp only [eraseFile_withFile htemp]

end Beside

section FreePlace

variable {fs : FileSystem} {p : Path} {place temp : List Text} {names : List Text}

theorem freePlace_eq_ok (h : fs.freePlace p place names = .ok temp) :
    fs.nodeAt temp = .missing ∧ ∃ name ∈ names, temp = temporaryPlace place name := by
  induction names with
  | nil => cases h
  | cons name names ih =>
    rw [freePlace] at h
    split at h
    · cases h
    · split at h
      · rename_i hnode
        obtain rfl := Except.ok.inj h
        exact ⟨hnode, name, by simp, rfl⟩
      · obtain ⟨hnode, name, hname, htemp⟩ := ih h
        exact ⟨hnode, name, by simp [hname], htemp⟩

theorem fileAt?_of_freePlace (h : fs.freePlace p place names = .ok temp) : fs.fileAt? temp = none :=
  (nodeAt_eq_missing_iff.mp (freePlace_eq_ok h).1).1

theorem isInputOutput_of_freePlace {e : FileProblem} (h : fs.freePlace p place names = .error e) :
    e.isInputOutput = true := by
  induction names with
  | nil =>
    obtain rfl := Except.error.inj h
    rfl
  | cons name names ih =>
    rw [freePlace] at h
    split at h
    · obtain rfl := Except.error.inj h
      rfl
    · split at h
      · cases h
      · exact ih h

theorem freePlace_congr {fs' : FileSystem} (h : ∀ name ∈ names,
    (fs'.nodeAt (temporaryPlace place name) = .missing ↔ fs.nodeAt (temporaryPlace place name) = .missing)) :
    fs'.freePlace p place names = fs.freePlace p place names := by
  induction names with
  | nil => rfl
  | cons name names ih =>
    have hfirst := h name (by simp)
    rw [freePlace, freePlace, ih fun name hname => h name (by simp [hname])]
    by_cases hnode : fs.nodeAt (temporaryPlace place name) = .missing
    · rw [hnode, hfirst.mpr hnode]
    · have hnode' : fs'.nodeAt (temporaryPlace place name) ≠ .missing := mt hfirst.mp hnode
      split
      · rfl
      · split
        · contradiction
        · rfl

/-- Which names are free does not depend on what the files hold. -/
theorem SameShape.freePlace_eq {fs' : FileSystem} (h : SameShape fs fs') (p : Path) (place : List Text)
    (names : List Text) : fs'.freePlace p place names = fs.freePlace p place names :=
  freePlace_congr fun _ _ => h.nodeAt_eq_missing_iff _

end FreePlace

end FileSystem

/-! ### Wherever the steps stop -/

open FileSystem

section Steps

variable {r : Replacement} {p : Path} {place temp : List Text} {new : File} {fs : FileSystem}

theorem replaceFile_of_refused (htemp : fs.freePlace p place r.names = .ok temp) {step : ReplaceStep}
    (hrefused : r.refused = some step) :
    replaceFile r p place new fs = (.error .replaceFailed, fs) := by
  have hnone := fileAt?_of_freePlace htemp
  rw [replaceFile, htemp]
  -- One case for each step at which the temporary file may be left; it is erased from all of them.
  cases step with
  | write =>
    simp [takeSteps, ReplaceStep.all, hrefused, setFile_of_none hnone, eraseFile_withFile hnone]
  | setMode =>
    simp [takeSteps, ReplaceStep.all, ReplaceStep.apply, hrefused, setFile_of_none hnone,
      modifyFile_withFile hnone, eraseFile_withFile hnone]
  | rename =>
    simp [takeSteps, ReplaceStep.all, ReplaceStep.apply, hrefused, setFile_of_none hnone,
      modifyFile_withFile hnone, eraseFile_withFile hnone]

theorem replaceFile_of_unrefused (htemp : fs.freePlace p place r.names = .ok temp)
    (hrefused : r.refused = none) :
    replaceFile r p place new fs = (.ok (), fs.setFile place new) := by
  have hnone := fileAt?_of_freePlace htemp
  rw [replaceFile, htemp]
  simp [takeSteps, ReplaceStep.all, ReplaceStep.apply, hrefused, setFile_of_none hnone,
    modifyFile_withFile hnone, moveFile_withFile hnone]

theorem replaceFile_of_no_place {e : FileProblem} (h : fs.freePlace p place r.names = .error e) :
    replaceFile r p place new fs = (.error e, fs) := by
  rw [replaceFile, h]

/-- A file can be replaced: there is a place for the temporary file, and no step is refused. -/
def CanReplace (r : Replacement) (p : Path) (place : List Text) (fs : FileSystem) : Prop :=
  r.refused = none ∧ ∃ temp, fs.freePlace p place r.names = .ok temp

theorem replaceFile_of_canReplace (h : CanReplace r p place fs) :
    replaceFile r p place new fs = (.ok (), fs.setFile place new) := by
  obtain ⟨hrefused, temp, htemp⟩ := h
  exact replaceFile_of_unrefused htemp hrefused

/-- Otherwise the file system says why, and is what it was. -/
theorem replaceFile_of_not_canReplace (new : File) (h : ¬ CanReplace r p place fs) :
    ∃ e, replaceFile r p place new fs = (.error e, fs) ∧ e.isInputOutput = true := by
  cases htemp : fs.freePlace p place r.names with
  | error e => exact ⟨e, replaceFile_of_no_place htemp, isInputOutput_of_freePlace htemp⟩
  | ok temp =>
    cases hrefused : r.refused with
    | none => exact absurd ⟨hrefused, temp, htemp⟩ h
    | some step => exact ⟨.replaceFailed, replaceFile_of_refused htemp hrefused, rfl⟩

end Steps

end CanonJson
