import CanonJson.Proofs.Files.Batch
import Mathlib.Data.List.Perm.Basic
/-!
# The files of a batch are independent

Whether a file can be updated, and what becomes of it, depends on the shape of the file system and on the file
itself. Updating another file changes neither. So a batch over different files does to each of them what updating
it alone does, and reports the same; the order does not matter, and a batch that fails ends before the first file
that cannot be updated alone.
-/

namespace CanonJson

open FileSystem

/-! ### Renewing one file -/

/-- What takes the place of a file that is updated, if anything does. -/
def UpdateOptions.successor? (o : UpdateOptions) (f : File) : Option File :=
  match outcomeOf o f.bytes with
  | .ok outcome => outcome.written?.map (File.mk f.mode)
  | .error _ => none

/-- The file system with the file at a place updated. -/
def FileSystem.renew (o : UpdateOptions) (fs : FileSystem) (place : List Text) : FileSystem :=
  match (fs.fileAt? place).bind o.successor? with
  | some new => fs.modifyFile place fun _ => new
  | none => fs

namespace FileSystem

variable {o : UpdateOptions} {fs : FileSystem} {place q : List Text} {f : File}

theorem renew_of_missing (hfile : fs.fileAt? place = none) : fs.renew o place = fs := by
  rw [renew, hfile, Option.bind_none]

theorem renew_of_none (hfile : fs.fileAt? place = some f) (h : o.successor? f = none) :
    fs.renew o place = fs := by
  rw [renew, hfile, Option.bind_some, h]

theorem renew_of_some (hfile : fs.fileAt? place = some f) {new : File} (h : o.successor? f = some new) :
    fs.renew o place = fs.setFile place new := by
  rw [renew, hfile, Option.bind_some, h, setFile, if_pos (by rw [hfile, Option.isSome_some])]

theorem fileAt?_renew (o : UpdateOptions) (fs : FileSystem) (place q : List Text) :
    (fs.renew o place).fileAt? q
      = if q = place then (fs.fileAt? q).map fun f => (o.successor? f).getD f else fs.fileAt? q := by
  cases hfile : fs.fileAt? place with
  | none =>
    rw [renew_of_missing hfile]
    by_cases hq : q = place
    · subst hq
      rw [if_pos rfl, hfile, Option.map_none]
    · rw [if_neg hq]
  | some f =>
    cases hnew : o.successor? f with
    | none =>
      rw [renew_of_none hfile hnew]
      by_cases hq : q = place
      · subst hq
        rw [if_pos rfl, hfile, Option.map_some, hnew, Option.getD_none]
      · rw [if_neg hq]
    | some new =>
      rw [renew_of_some hfile hnew, fileAt?_setFile]
      by_cases hq : q = place
      · subst hq
        rw [if_pos rfl, if_pos rfl, hfile, Option.map_some, hnew, Option.getD_some]
      · rw [if_neg hq, if_neg hq]

theorem home_renew (o : UpdateOptions) (fs : FileSystem) (place : List Text) :
    (fs.renew o place).home = fs.home := by
  rw [renew]
  split
  · rfl
  · rfl

theorem directories_renew (o : UpdateOptions) (fs : FileSystem) (place : List Text) :
    (fs.renew o place).directories = fs.directories := by
  rw [renew]
  split
  · rfl
  · rfl

theorem modifyFile_comm (h : q ≠ place) (change change' : File → File) :
    (fs.modifyFile place change).modifyFile q change' = (fs.modifyFile q change').modifyFile place change := by
  simp only [modifyFile, List.map_map]
  congr 1
  apply List.map_congr_left
  intro e _
  by_cases hplace : e.1 = place
  · simp [hplace, h.symm]
  · by_cases hq : e.1 = q
    · simp [hq, h]
    · simp [hplace, hq]

/-- Updates at two places can be exchanged: neither sees what the other does. -/
theorem renew_comm (o : UpdateOptions) (fs : FileSystem) (place q : List Text) :
    (fs.renew o place).renew o q = (fs.renew o q).renew o place := by
  by_cases h : q = place
  · rw [h]
  · have hq : (fs.renew o place).fileAt? q = fs.fileAt? q := by rw [fileAt?_renew, if_neg h]
    have hplace : (fs.renew o q).fileAt? place = fs.fileAt? place := by
      rw [fileAt?_renew, if_neg fun heq => h heq.symm]
    rw [renew, hq]
    conv => rhs; rw [renew, hplace]
    simp only [renew]
    cases (fs.fileAt? place).bind o.successor? with
    | none =>
      cases (fs.fileAt? q).bind o.successor? with
      | none => rfl
      | some new => rfl
    | some new =>
      cases (fs.fileAt? q).bind o.successor? with
      | none => rfl
      | some new' => exact modifyFile_comm h _ _

/-- The file system with the files at several places updated. -/
def renewAll (o : UpdateOptions) (fs : FileSystem) (places : List (List Text)) : FileSystem :=
  places.foldl (renew o) fs

@[simp] theorem renewAll_nil (o : UpdateOptions) (fs : FileSystem) : fs.renewAll o [] = fs := rfl

@[simp] theorem renewAll_cons (o : UpdateOptions) (fs : FileSystem) (place : List Text)
    (places : List (List Text)) : fs.renewAll o (place :: places) = (fs.renew o place).renewAll o places := rfl

theorem renewAll_perm {places places' : List (List Text)} (h : places.Perm places') :
    fs.renewAll o places = fs.renewAll o places' :=
  h.foldl_eq' (fun place _ q _ fs => renew_comm o fs place q) fs

theorem sameShape_renew (o : UpdateOptions) (fs : FileSystem) (place : List Text) :
    SameShape fs (fs.renew o place) where
  home := home_renew o fs place
  directories := directories_renew o fs place
  isSome_fileAt? q := by
    rw [fileAt?_renew]
    split
    · rw [Option.isSome_map]
    · rfl

theorem SameShape.trans {fs' fs'' : FileSystem} (h : SameShape fs fs') (h' : SameShape fs' fs'') :
    SameShape fs fs'' where
  home := h'.home.trans h.home
  directories := h'.directories.trans h.directories
  isSome_fileAt? q := (h'.isSome_fileAt? q).trans (h.isSome_fileAt? q)

theorem sameShape_renewAll (o : UpdateOptions) (fs : FileSystem) (places : List (List Text)) :
    SameShape fs (fs.renewAll o places) := by
  induction places generalizing fs with
  | nil => exact ⟨rfl, rfl, fun _ => rfl⟩
  | cons place places ih => exact (sameShape_renew o fs place).trans (ih _)

theorem fileAt?_renewAll {places : List (List Text)} (hdistinct : places.Nodup) (q : List Text) :
    (fs.renewAll o places).fileAt? q = if q ∈ places then (fs.renew o q).fileAt? q else fs.fileAt? q := by
  induction places generalizing fs with
  | nil => simp
  | cons place places ih =>
    obtain ⟨hfirst, hrest⟩ := List.nodup_cons.mp hdistinct
    rw [renewAll_cons, ih hrest]
    by_cases hq : q = place
    · subst hq
      rw [if_neg hfirst, if_pos (List.mem_cons_self ..)]
    · simp only [List.mem_cons, hq, false_or, fileAt?_renew, if_false, if_true]

end FileSystem

/-! ### Updating one file -/

section Alone

variable {o : UpdateOptions} {r : Replacement} {p : Path} {fs fs' : FileSystem} {place : List Text} {f : File}

theorem snd_updateFile_of_error {e : FileProblem} (h : (updateFile o r p fs).1 = .error e) :
    (updateFile o r p fs).2 = fs := by
  cases hread : fs.read p with
  | error e => rw [updateFile_of_read_error hread]
  | ok found =>
  obtain ⟨place, f⟩ := found
  cases houtcome : outcomeOf o f.bytes with
  | error q => rw [updateFile_of_outcome_error hread houtcome]
  | ok outcome =>
  cases hwritten : outcome.written? with
  | none => rw [updateFile_of_unwritten hread houtcome hwritten]
  | some output =>
  by_cases hreplace : CanReplace r p place fs
  · rw [updateFile_of_replaced hread houtcome hwritten hreplace] at h
    cases h
  · obtain ⟨e, hupdate, -⟩ := updateFile_of_unreplaced hread houtcome hwritten hreplace
    rw [hupdate]

theorem snd_updateFile_of_ok (hread : fs.read p = .ok (place, f)) {report : FileReport}
    (h : (updateFile o r p fs).1 = .ok report) : (updateFile o r p fs).2 = fs.renew o place := by
  have hfile := (place_of_read hread).2
  cases houtcome : outcomeOf o f.bytes with
  | error q =>
    rw [updateFile_of_outcome_error hread houtcome] at h
    cases h
  | ok outcome =>
  have hsuccessor : o.successor? f = outcome.written?.map (File.mk f.mode) := by
    rw [UpdateOptions.successor?, houtcome]
  cases hwritten : outcome.written? with
  | none =>
    rw [hwritten, Option.map_none] at hsuccessor
    rw [updateFile_of_unwritten hread houtcome hwritten, renew_of_none hfile hsuccessor]
  | some output =>
    rw [hwritten, Option.map_some] at hsuccessor
    by_cases hreplace : CanReplace r p place fs
    · rw [updateFile_of_replaced hread houtcome hwritten hreplace, renew_of_some hfile hsuccessor]
    · obtain ⟨e, hupdate, -⟩ := updateFile_of_unreplaced hread houtcome hwritten hreplace
      rw [hupdate] at h
      cases h

theorem fst_updateFile_of_written (hread : fs.read p = .ok (place, f)) {outcome : FileOutcome}
    (h : outcomeOf o f.bytes = .ok outcome) {output : Bytes} (hwritten : outcome.written? = some output) :
    (updateFile o r p fs).1
      = (replaceFile r p place ⟨f.mode, output⟩ fs).1.map fun _ => ⟨p.toText, outcome⟩ := by
  rw [updateFile, hread]
  simp only [h, hwritten]
  split
  · rename_i heq
    rw [heq]
    rfl
  · rename_i heq
    rw [heq]
    rfl

theorem fileAt?_snd_updateFile_of_ne (hread : fs.read p = .ok (place, f)) {q : List Text} (hq : q ≠ place) :
    (updateFile o r p fs).2.fileAt? q = fs.fileAt? q := by
  cases h : (updateFile o r p fs).1 with
  | error e => rw [snd_updateFile_of_error h]
  | ok report => rw [snd_updateFile_of_ok hread h, fileAt?_renew, if_neg hq]

/-- How a replacement ends does not depend on what the files hold. -/
theorem FileSystem.SameShape.fst_replaceFile_eq (h : SameShape fs fs') (new : File) :
    (replaceFile r p place new fs').1 = (replaceFile r p place new fs).1 := by
  have hplace := h.freePlace_eq p place r.names
  cases htemp : fs.freePlace p place r.names with
  | error e =>
    rw [htemp] at hplace
    rw [replaceFile_of_no_place htemp, replaceFile_of_no_place hplace]
  | ok temp =>
    rw [htemp] at hplace
    cases hrefused : r.refused with
    | none => rw [replaceFile_of_unrefused htemp hrefused, replaceFile_of_unrefused hplace hrefused]
    | some step => rw [replaceFile_of_refused htemp hrefused, replaceFile_of_refused hplace hrefused]

/-- Whether a file can be updated, and what is reported, depends on the shape of the file system and on the
file. -/
theorem FileSystem.SameShape.fst_updateFile_eq (h : SameShape fs fs') (hread : fs.read p = .ok (place, f))
    (hfile : fs'.fileAt? place = fs.fileAt? place) :
    (updateFile o r p fs').1 = (updateFile o r p fs).1 := by
  obtain ⟨f', hfile', hread'⟩ := h.read_of_read hread
  rw [hfile, (place_of_read hread).2] at hfile'
  obtain rfl := Option.some.inj hfile'
  cases houtcome : outcomeOf o f.bytes with
  | error q => rw [updateFile_of_outcome_error hread houtcome, updateFile_of_outcome_error hread' houtcome]
  | ok outcome =>
  cases hwritten : outcome.written? with
  | none =>
    rw [updateFile_of_unwritten hread houtcome hwritten, updateFile_of_unwritten hread' houtcome hwritten]
  | some output =>
    rw [fst_updateFile_of_written hread houtcome hwritten, fst_updateFile_of_written hread' houtcome hwritten,
      h.fst_replaceFile_eq]

end Alone

/-! ### Batches -/

section Batches

variable {o : UpdateOptions} {r : Replacement} {p : Path} {paths front rest : List Path} {fs fs' : FileSystem}
  {reports : List FileReport} {e : FileProblem}

theorem updateEach_append_of_error (hfront : updateEach o r front fs = (.ok reports, fs'))
    (h : updateFile o r p fs' = (.error e, fs')) : updateEach o r (front ++ p :: rest) fs = (.error e, fs') := by
  induction front generalizing fs reports with
  | nil =>
    obtain ⟨-, rfl⟩ := Prod.mk.inj hfront
    rw [List.nil_append, updateEach, h]
  | cons q front ih =>
    rw [updateEach] at hfront
    rw [List.cons_append, updateEach]
    split at hfront
    · cases (Prod.mk.inj hfront).1
    · rename_i report fs₁ hfirst
      split at hfront
      · rename_i reports' fs₂ hrest
        obtain ⟨-, rfl⟩ := Prod.mk.inj hfront
        simp only [ih hrest]
      · cases (Prod.mk.inj hfront).1

def resultsAlone (o : UpdateOptions) (r : Replacement) (fs : FileSystem) (paths : List Path) :
    List (Except FileProblem FileReport) :=
  paths.map fun p => (updateFile o r p fs).1

/-- Every file of a batch is as its own update leaves it, and nothing else has changed. -/
structure EachUpdated (o : UpdateOptions) (r : Replacement) (paths : List Path) (fs fs' : FileSystem) : Prop where
  home : fs'.home = fs.home
  directories : fs'.directories = fs.directories
  updated : ∀ p ∈ paths, fs'.fileAt? (fs.place p) = (updateFile o r p fs).2.fileAt? (fs.place p)
  others : ∀ q, q ∉ paths.map fs.place → fs'.fileAt? q = fs.fileAt? q

/-- The same files at the same places. -/
structure FileSystem.SameFiles (fs fs' : FileSystem) : Prop where
  home : fs'.home = fs.home
  directories : fs'.directories = fs.directories
  fileAt? : ∀ q, fs'.fileAt? q = fs.fileAt? q

theorem EachUpdated.sameFiles {paths' : List Path} {fs₁ fs₂ : FileSystem} (h₁ : EachUpdated o r paths fs fs₁)
    (h₂ : EachUpdated o r paths' fs fs₂) (hpaths : paths'.Perm paths) : SameFiles fs₁ fs₂ where
  home := h₂.home.trans h₁.home.symm
  directories := h₂.directories.trans h₁.directories.symm
  fileAt? q := by
    by_cases hq : q ∈ paths.map fs.place
    · obtain ⟨p, hp, rfl⟩ := List.mem_map.mp hq
      rw [h₁.updated p hp, h₂.updated p (hpaths.mem_iff.mpr hp)]
    · rw [h₁.others q hq, h₂.others q fun hq' => hq ((hpaths.map _).mem_iff.mp hq')]

/-- Either every path can be updated alone, or there is a first that cannot. -/
theorem resultsAlone_cases (o : UpdateOptions) (r : Replacement) (fs : FileSystem) (paths : List Path) :
    (∃ reports : List FileReport, resultsAlone o r fs paths = reports.map .ok)
      ∨ ∃ front p rest e, ∃ reports : List FileReport, paths = front ++ p :: rest
        ∧ resultsAlone o r fs front = reports.map .ok ∧ (updateFile o r p fs).1 = .error e := by
  induction paths with
  | nil => exact .inl ⟨[], rfl⟩
  | cons p ps ih =>
    cases hfirst : (updateFile o r p fs).1 with
    | error e => exact .inr ⟨[], p, ps, e, [], rfl, rfl, hfirst⟩
    | ok report =>
      rcases ih with ⟨reports, hall⟩ | ⟨front, q, rest, e, reports, rfl, hfront, hq⟩
      · refine .inl ⟨report :: reports, ?_⟩
        rw [List.map_cons, ← hall, ← hfirst]
        rfl
      · refine .inr ⟨p :: front, q, rest, e, report :: reports, rfl, ?_, hq⟩
        rw [List.map_cons, ← hfront, ← hfirst]
        rfl

section Distinct

variable (hread : ∀ p ∈ paths, ∃ place f, fs.read p = .ok (place, f)) (hdistinct : (paths.map fs.place).Nodup)

include hread hdistinct

/-- What each path gives alone is what the batch gives. The files that are still to come are those of the
beginning, and what lies elsewhere may have been updated. -/
theorem updateEach_of_resultsAlone_from (hshape : SameShape fs fs')
    (hsame : ∀ p ∈ paths, fs'.fileAt? (fs.place p) = fs.fileAt? (fs.place p))
    (halone : resultsAlone o r fs paths = reports.map .ok) :
    updateEach o r paths fs' = (.ok reports, fs'.renewAll o (paths.map fs.place)) := by
  induction paths generalizing fs' reports with
  | nil =>
    obtain rfl := List.map_eq_nil_iff.mp halone.symm
    rfl
  | cons p ps ih =>
    cases reports with
    | nil => cases halone
    | cons report reports =>
      obtain ⟨hfirst, hrest⟩ := List.cons.inj halone
      obtain ⟨place, f, hfile⟩ := hread p (by simp)
      obtain ⟨rfl, -⟩ := place_of_read hfile
      obtain ⟨hnew, hdistinct'⟩ := List.nodup_cons.mp hdistinct
      obtain ⟨f', -, hfile'⟩ := hshape.read_of_read hfile
      have hreport : (updateFile o r p fs').1 = .ok report :=
        (hshape.fst_updateFile_eq hfile (hsame p (by simp))).trans hfirst
      have hupdate : updateFile o r p fs' = (.ok report, fs'.renew o (fs.place p)) :=
        Prod.ext hreport (snd_updateFile_of_ok hfile' hreport)
      have hsame' : ∀ q ∈ ps, (fs'.renew o (fs.place p)).fileAt? (fs.place q) = fs.fileAt? (fs.place q) := by
        intro q hq
        have hne : fs.place q ≠ fs.place p := fun h => hnew (h ▸ List.mem_map_of_mem hq)
        rw [fileAt?_renew, if_neg hne, hsame q (by simp [hq])]
      have hbatch := ih (fun q hq => hread q (by simp [hq])) hdistinct'
        (hshape.trans (sameShape_renew o fs' _)) hsame' hrest
      rw [updateEach, hupdate]
      simp only [hbatch, List.map_cons, renewAll_cons]

theorem updateEach_of_resultsAlone (halone : resultsAlone o r fs paths = reports.map .ok) :
    updateEach o r paths fs = (.ok reports, fs.renewAll o (paths.map fs.place)) :=
  updateEach_of_resultsAlone_from hread hdistinct ⟨rfl, rfl, fun _ => rfl⟩ (fun _ _ => rfl) halone

theorem eachUpdated_renewAll (halone : resultsAlone o r fs paths = reports.map .ok) :
    EachUpdated o r paths fs (fs.renewAll o (paths.map fs.place)) where
  home := (sameShape_renewAll o fs _).home
  directories := (sameShape_renewAll o fs _).directories
  updated p hp := by
    obtain ⟨place, f, hfile⟩ := hread p hp
    obtain ⟨rfl, -⟩ := place_of_read hfile
    have hresult : (updateFile o r p fs).1 ∈ reports.map Except.ok := by
      rw [← halone]
      exact List.mem_map_of_mem hp
    obtain ⟨report, -, hreport⟩ := List.mem_map.mp hresult
    rw [fileAt?_renewAll hdistinct, if_pos (List.mem_map_of_mem hp), snd_updateFile_of_ok hfile hreport.symm]
  others q hq := by rw [fileAt?_renewAll hdistinct, if_neg hq]

end Distinct

/-- A batch ends at the first path that cannot be updated alone, with what the paths before it have left. -/
theorem updateEach_of_first_error
    (hread : ∀ q ∈ front ++ p :: rest, ∃ place f, fs.read q = .ok (place, f))
    (hdistinct : ((front ++ p :: rest).map fs.place).Nodup)
    (hfront : resultsAlone o r fs front = reports.map .ok) (h : (updateFile o r p fs).1 = .error e) :
    updateEach o r (front ++ p :: rest) fs = (.error e, fs.renewAll o (front.map fs.place)) := by
  rw [List.map_append, List.map_cons, List.nodup_append] at hdistinct
  obtain ⟨hfirst, -, hapart⟩ := hdistinct
  obtain ⟨place, f, hfile⟩ := hread p (by simp)
  obtain ⟨rfl, -⟩ := place_of_read hfile
  have hbatch := updateEach_of_resultsAlone (fun q hq => hread q (by simp [hq])) hfirst hfront
  have hkept : (fs.renewAll o (front.map fs.place)).fileAt? (fs.place p) = fs.fileAt? (fs.place p) := by
    rw [fileAt?_renewAll hfirst, if_neg fun hmem => hapart _ hmem _ (List.mem_cons_self ..) rfl]
  have herror : (updateFile o r p (fs.renewAll o (front.map fs.place))).1 = .error e :=
    ((sameShape_renewAll o fs _).fst_updateFile_eq hfile hkept).trans h
  exact updateEach_append_of_error hbatch (Prod.ext herror (snd_updateFile_of_error herror))

/-- A batch fails exactly if some path cannot be updated alone, and then it leaves what the paths before the first
such path leave. -/
theorem updateEach_eq_error_iff (hread : ∀ p ∈ paths, ∃ place f, fs.read p = .ok (place, f))
    (hdistinct : (paths.map fs.place).Nodup) :
    updateEach o r paths fs = (.error e, fs')
      ↔ ∃ front p rest reports, paths = front ++ p :: rest ∧ updateEach o r front fs = (.ok reports, fs')
        ∧ (updateFile o r p fs).1 = .error e := by
  constructor
  · intro hbatch
    rcases resultsAlone_cases o r fs paths with ⟨reports, hall⟩ | ⟨front, p, rest, e', reports, rfl, hfront, hp⟩
    · rw [updateEach_of_resultsAlone hread hdistinct hall] at hbatch
      cases (Prod.mk.inj hbatch).1
    · rw [updateEach_of_first_error hread hdistinct hfront hp] at hbatch
      obtain ⟨he, rfl⟩ := Prod.mk.inj hbatch
      obtain rfl := Except.error.inj he
      rw [List.map_append, List.nodup_append] at hdistinct
      have hfirst := updateEach_of_resultsAlone (fun q hq => hread q (by simp [hq])) hdistinct.1 hfront
      exact ⟨front, p, rest, reports, rfl, hfirst, hp⟩
  · rintro ⟨front, p, rest, reports, rfl, hfirst, hp⟩
    have hread' : ∀ q ∈ front, ∃ place f, fs.read q = .ok (place, f) := fun q hq => hread q (by simp [hq])
    have hdistinct' : (front.map fs.place).Nodup := by
      rw [List.map_append, List.nodup_append] at hdistinct
      exact hdistinct.1
    rcases resultsAlone_cases o r fs front with ⟨reports', hall⟩ | ⟨before, q, after, e', _, rfl, hbefore, hq⟩
    · rw [updateEach_of_first_error hread hdistinct hall hp]
      rw [updateEach_of_resultsAlone hread' hdistinct' hall] at hfirst
      rw [(Prod.mk.inj hfirst).2]
    · rw [updateEach_of_first_error hread' hdistinct' hbefore hq] at hfirst
      cases (Prod.mk.inj hfirst).1

end Batches

end CanonJson
