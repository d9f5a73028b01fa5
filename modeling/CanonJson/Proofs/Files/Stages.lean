import CanonJson.Files.Pool
import CanonJson.Proofs.Files.Independent
import Mathlib.Logic.Function.Iterate
/-!
# The steps of an update

The update of a file is a sequence of steps, each of which reads or changes the files once. All that a step looks
at or changes is the file itself and the places that were free for its temporary file. What lies anywhere else may
come and go between two steps, as long as directories and files stay: the update goes through the same stages and
leaves the same at its own places.
-/

namespace CanonJson

open FileSystem

/-! ### Stages -/

/-- Takes one step of an update. -/
def advance (o : UpdateOptions) (r : Replacement) (p : Path) (state : Stage × FileSystem) : Stage × FileSystem :=
  let (stage, edit) := state.1.next o r p state.2
  (stage, edit.apply state.2)

/-- The update of one file, as far as it has come after some steps that no other update comes between. -/
def alone (o : UpdateOptions) (r : Replacement) (p : Path) (fs : FileSystem) (turns : Nat) : Stage × FileSystem :=
  (advance o r p)^[turns] (.waiting, fs)

/-- How many steps are left of an update, at most. -/
def Stage.left : Stage → Nat
  | .waiting => 6
  | .formatted .. => 5
  | .replacing _ _ _ _ steps => steps.length + 1
  | .finished _ => 0

/-- As many steps as an update can have: one to read the file, one to create the temporary file, one for each
step of the replacement and one to return. -/
def maxTurns : Nat := 6

section Alone

variable (o : UpdateOptions) (r : Replacement) (p : Path) (fs : FileSystem)

/-- The stage and the files at the end of an update. -/
def Stage.ending (stage : Stage) : Stage × FileSystem :=
  (.finished (stage.finish o r p fs).1, (stage.finish o r p fs).2)

theorem advance_finished (result : Except FileProblem FileReport) :
    advance o r p (.finished result, fs) = (.finished result, fs) := rfl

theorem iterate_advance_finished (result : Except FileProblem FileReport) (turns : Nat) :
    (advance o r p)^[turns] (.finished result, fs) = (.finished result, fs) :=
  Function.iterate_fixed (advance_finished o r p fs result) turns

theorem iterate_advance_replacing (report : FileReport) (place temp : List Text) (new : File)
    (steps : List ReplaceStep) :
    (advance o r p)^[steps.length + 1] (.replacing report place temp new steps, fs)
      = (Stage.replacing report place temp new steps).ending o r p fs := by
  induction steps generalizing fs with
  | nil => rfl
  | cons step steps ih =>
    rw [List.length_cons, Function.iterate_succ_apply, Stage.ending, Stage.finish, takeSteps, advance, Stage.next]
    by_cases hrefused : r.refused = some step
    · rw [if_pos hrefused, if_pos hrefused]
      exact iterate_advance_finished ..
    · rw [if_neg hrefused, if_neg hrefused]
      exact ih _

theorem iterate_advance_formatted (report : FileReport) (place : List Text) (new : File) :
    (advance o r p)^[5] (.formatted report place new, fs) = (Stage.formatted report place new).ending o r p fs := by
  rw [Function.iterate_succ_apply, advance, Stage.next, Stage.ending, Stage.finish, replaceFile]
  cases htemp : fs.freePlace p place r.names with
  | error e => exact iterate_advance_finished ..
  | ok temp =>
    refine (iterate_advance_replacing o r p _ report place temp new ReplaceStep.all).trans ?_
    simp only [Stage.ending, Stage.finish, Edit.apply]
    generalize takeSteps _ _ _ _ = taken
    obtain ⟨result, fs'⟩ := taken
    cases result <;> rfl

theorem iterate_advance_waiting :
    (advance o r p)^[6] (.waiting, fs) = Stage.waiting.ending o r p fs := by
  rw [Function.iterate_succ_apply, advance, Stage.next, Stage.ending, Stage.finish, updateFile]
  cases hread : fs.read p with
  | error e => exact iterate_advance_finished ..
  | ok found =>
  obtain ⟨place, f⟩ := found
  cases houtcome : outcomeOf o f.bytes with
  | error q =>
    simp only [houtcome]
    exact iterate_advance_finished ..
  | ok outcome =>
  cases hwritten : outcome.written? with
  | none =>
    simp only [houtcome, hwritten]
    exact iterate_advance_finished ..
  | some output =>
  simp only [houtcome, hwritten, Edit.apply]
  refine (iterate_advance_formatted o r p fs _ _ _).trans ?_
  rw [Stage.ending, Stage.finish]
  generalize replaceFile _ _ _ _ _ = replaced
  obtain ⟨result, fs'⟩ := replaced
  cases result <;> rfl

/-- Step by step an update comes to the same end as at once. -/
theorem iterate_advance (stage : Stage) {turns : Nat} (h : stage.left ≤ turns) :
    (advance o r p)^[turns] (stage, fs) = stage.ending o r p fs := by
  obtain ⟨more, rfl⟩ := Nat.exists_eq_add_of_le' h
  have hleft : (advance o r p)^[stage.left] (stage, fs) = stage.ending o r p fs := by
    cases stage with
    | waiting => exact iterate_advance_waiting o r p fs
    | formatted report place new => exact iterate_advance_formatted o r p fs report place new
    | replacing report place temp new steps => exact iterate_advance_replacing o r p fs report place temp new steps
    | finished result => rfl
  rw [Function.iterate_add_apply, hleft]
  exact iterate_advance_finished ..

theorem alone_eq_updateFile {turns : Nat} (h : maxTurns ≤ turns) :
    alone o r p fs turns = (.finished (updateFile o r p fs).1, (updateFile o r p fs).2) :=
  iterate_advance o r p fs .waiting h

end Alone

/-! ### What a step looks at and changes -/

/-- A place that was free for the temporary file of an update. -/
def Spare (r : Replacement) (fs : FileSystem) (p : Path) (temp : List Text) : Prop :=
  fs.nodeAt temp = .missing ∧ ∃ name ∈ r.names, temp = temporaryPlace (fs.place p) name

/-- The places that an update has for itself: that of the file, and the spare ones. -/
def Owns (r : Replacement) (fs : FileSystem) (p : Path) (q : List Text) : Prop :=
  q = fs.place p ∨ Spare r fs p q

/-- An edit at the places of an update. -/
def Edit.Within (r : Replacement) (fs : FileSystem) (p : Path) : Edit → Prop
  | .keep => True
  | .create temp => Spare r fs p temp
  | .take place temp _ _ => place = fs.place p ∧ Spare r fs p temp
  | .erase temp => Spare r fs p temp

/-- A stage at the places of an update. -/
def Stage.Within (r : Replacement) (fs : FileSystem) (p : Path) : Stage → Prop
  | .waiting => True
  | .formatted _ place _ => place = fs.place p
  | .replacing _ place temp _ _ => place = fs.place p ∧ Spare r fs p temp
  | .finished _ => True

section Steps

variable {place temp q : List Text} {new : File} {fs fs' : FileSystem}

theorem ReplaceStep.fileAt?_apply_of_ne (step : ReplaceStep) (hplace : q ≠ place) (htemp : q ≠ temp) :
    (step.apply place temp new fs).fileAt? q = fs.fileAt? q := by
  cases step with
  | write => rw [apply, fileAt?_modifyFile, if_neg htemp]
  | setMode => rw [apply, fileAt?_modifyFile, if_neg htemp]
  | rename =>
    rw [apply]
    cases hfile : fs.fileAt? temp with
    | none => rw [moveFile, hfile]
    | some f => rw [fileAt?_moveFile fs temp q hfile, if_neg hplace, if_neg htemp]

/-- What a step leaves at a place depends on what was there, and on the temporary file. -/
theorem ReplaceStep.fileAt?_apply_congr (step : ReplaceStep) (htemp : fs'.fileAt? temp = fs.fileAt? temp)
    (hq : fs'.fileAt? q = fs.fileAt? q) :
    (step.apply place temp new fs').fileAt? q = (step.apply place temp new fs).fileAt? q := by
  cases step with
  | write => rw [apply, apply, fileAt?_modifyFile, fileAt?_modifyFile, hq]
  | setMode => rw [apply, apply, fileAt?_modifyFile, fileAt?_modifyFile, hq]
  | rename =>
    rw [apply, apply]
    cases hfile : fs.fileAt? temp with
    | none => rw [moveFile, moveFile, htemp, hfile, hq]
    | some f =>
      rw [fileAt?_moveFile fs temp q hfile, fileAt?_moveFile fs' temp q (htemp.trans hfile), hq]

@[simp] theorem ReplaceStep.home_apply (step : ReplaceStep) : (step.apply place temp new fs).home = fs.home := by
  cases step with
  | write => rfl
  | setMode => rfl
  | rename =>
    rw [apply, moveFile]
    split
    · exact home_setFile ..
    · rfl

@[simp] theorem ReplaceStep.directories_apply (step : ReplaceStep) :
    (step.apply place temp new fs).directories = fs.directories := by
  cases step with
  | write => rfl
  | setMode => rfl
  | rename =>
    rw [apply, moveFile]
    split
    · exact directories_setFile ..
    · rfl

end Steps

section Edits

variable {r : Replacement} {p : Path} {fs fs₁ fs₂ : FileSystem} {edit : Edit} (h : edit.Within r fs p)

include h

theorem Edit.fileAt?_apply_of_not_owns {q : List Text} (hq : ¬ Owns r fs p q) :
    (edit.apply fs₁).fileAt? q = fs₁.fileAt? q := by
  have hspare : ∀ temp, Spare r fs p temp → q ≠ temp := fun temp htemp heq => hq (.inr (heq ▸ htemp))
  cases edit with
  | keep => rfl
  | create temp => rw [apply, fileAt?_setFile, if_neg (hspare temp h)]
  | take place temp new step =>
    obtain ⟨rfl, htemp⟩ := h
    exact step.fileAt?_apply_of_ne (fun heq => hq (.inl heq)) (hspare temp htemp)
  | erase temp => rw [apply, fileAt?_eraseFile, if_neg (hspare temp h)]

theorem Edit.fileAt?_apply_congr (hsame : ∀ q, Owns r fs p q → fs₂.fileAt? q = fs₁.fileAt? q) (q : List Text)
    (hq : Owns r fs p q) : (edit.apply fs₂).fileAt? q = (edit.apply fs₁).fileAt? q := by
  cases edit with
  | keep => exact hsame q hq
  | create temp => rw [apply, apply, fileAt?_setFile, fileAt?_setFile, hsame q hq]
  | take place temp new step => exact step.fileAt?_apply_congr (hsame temp (.inr h.2)) (hsame q hq)
  | erase temp => rw [apply, apply, fileAt?_eraseFile, fileAt?_eraseFile, hsame q hq]

variable {f : File} (hfile : fs.fileAt? (fs.place p) = some f) (hgrown : Grown fs fs₁)

include hfile hgrown

/-- The file itself may become another one, but it never goes away. -/
theorem Edit.isSome_fileAt?_apply : ((edit.apply fs₁).fileAt? (fs.place p)).isSome := by
  obtain ⟨f₁, hfile₁⟩ := hgrown.fileAt?_of_some hfile
  have hspare : ∀ temp, Spare r fs p temp → fs.place p ≠ temp := by
    intro temp htemp heq
    rw [← heq] at htemp
    simp [nodeAt_of_some hfile, Spare] at htemp
  cases edit with
  | keep => rw [apply, hfile₁, Option.isSome_some]
  | create temp => rw [apply, fileAt?_setFile, if_neg (hspare temp h), hfile₁, Option.isSome_some]
  | erase temp => rw [apply, fileAt?_eraseFile, if_neg (hspare temp h), hfile₁, Option.isSome_some]
  | take place temp new step =>
    obtain ⟨rfl, htemp⟩ := h
    rw [apply]
    cases step with
    | write => rw [ReplaceStep.apply, fileAt?_modifyFile, if_neg (hspare temp htemp), hfile₁, Option.isSome_some]
    | setMode => rw [ReplaceStep.apply, fileAt?_modifyFile, if_neg (hspare temp htemp), hfile₁, Option.isSome_some]
    | rename =>
      rw [ReplaceStep.apply]
      cases hmoved : fs₁.fileAt? temp with
      | none => rw [moveFile, hmoved, hfile₁, Option.isSome_some]
      | some f' => rw [fileAt?_moveFile fs₁ temp _ hmoved, if_pos rfl, Option.isSome_some]

theorem Edit.grown_apply : Grown fs (edit.apply fs₁) where
  home := by
    rw [← hgrown.home]
    cases edit <;> simp [apply, eraseFile]
  directories := by
    rw [← hgrown.directories]
    cases edit <;> simp [apply, eraseFile]
  isSome_fileAt? q hq := by
    by_cases hplace : q = fs.place p
    · rw [hplace, Edit.isSome_fileAt?_apply h hfile hgrown, hfile, Option.isSome_some]
    · have howns : ¬ Owns r fs p q := fun howns => hq (howns.resolve_left hplace).1
      rw [Edit.fileAt?_apply_of_not_owns h howns, hgrown.isSome_fileAt? q hq]

end Edits

section Stages

variable {o : UpdateOptions} {r : Replacement} {p : Path} {fs fs₁ fs₂ : FileSystem} {f : File} {stage : Stage}
  (hread : fs.read p = .ok (fs.place p, f)) (hgrown : Grown fs fs₁) (h : stage.Within r fs p)

include hread hgrown h

theorem Stage.within_next :
    (stage.next o r p fs₁).1.Within r fs p ∧ (stage.next o r p fs₁).2.Within r fs p := by
  cases stage with
  | waiting =>
    obtain ⟨f₁, -, hread₁⟩ := hgrown.read_of_read hread
    rw [next, hread₁]
    simp only
    split
    · exact ⟨trivial, trivial⟩
    · split
      · exact ⟨trivial, trivial⟩
      · exact ⟨rfl, trivial⟩
  | formatted report place new =>
    rw [next]
    cases htemp : fs₁.freePlace p place r.names with
    | error e => exact ⟨trivial, trivial⟩
    | ok temp =>
      obtain ⟨hnode, hname⟩ := freePlace_eq_ok htemp
      have hspare : Spare r fs p temp := by
        refine ⟨of_not_not fun hne => hgrown.nodeAt_ne_missing hne hnode, ?_⟩
        rwa [show place = fs.place p from h] at hname
      exact ⟨⟨h, hspare⟩, hspare⟩
  | replacing report place temp new steps =>
    cases steps with
    | nil => exact ⟨trivial, trivial⟩
    | cons step steps =>
      rw [next]
      split
      · exact ⟨trivial, h.2⟩
      · exact ⟨h, h⟩
  | finished result => exact ⟨trivial, trivial⟩

/-- The next step is the same wherever the own places of the update look the same. -/
theorem Stage.next_congr (hgrown₂ : Grown fs fs₂)
    (hsame : ∀ q, Owns r fs p q → fs₂.fileAt? q = fs₁.fileAt? q) :
    stage.next o r p fs₂ = stage.next o r p fs₁ := by
  cases stage with
  | waiting =>
    obtain ⟨f₁, hfile₁, hread₁⟩ := hgrown.read_of_read hread
    obtain ⟨f₂, hfile₂, hread₂⟩ := hgrown₂.read_of_read hread
    rw [hsame _ (.inl rfl), hfile₁] at hfile₂
    obtain rfl := Option.some.inj hfile₂
    rw [next, next, hread₁, hread₂]
  | formatted report place new =>
    obtain rfl : place = fs.place p := h
    have hplace : fs₂.freePlace p (fs.place p) r.names = fs₁.freePlace p (fs.place p) r.names := by
      apply freePlace_congr
      intro name hname
      by_cases hnode : fs.nodeAt (temporaryPlace (fs.place p) name) = .missing
      · rw [nodeAt_eq_missing_iff, nodeAt_eq_missing_iff, hsame _ (.inr ⟨hnode, name, hname, rfl⟩),
          hgrown.home, hgrown.directories, hgrown₂.home, hgrown₂.directories]
      · exact iff_of_false (hgrown₂.nodeAt_ne_missing hnode) (hgrown.nodeAt_ne_missing hnode)
    rw [next, next, hplace]
  | replacing report place temp new steps => cases steps <;> rfl
  | finished result => rfl

end Stages

end CanonJson
