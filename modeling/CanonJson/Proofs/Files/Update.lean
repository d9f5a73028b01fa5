import CanonJson.Files.Update
import CanonJson.Proofs.Failure
import CanonJson.Proofs.Files.Replace
/-!
# Updating one file

Reading, formatting and replacing a file each have their own ways to fail, and after each of them the file
system is what it was. If none of them fails, the file holds its canonical form or, if it is malformed or
not to be written, what it held before; no other file changes.
-/

namespace CanonJson

open FileSystem

/-! ### Contents -/

section Contents

variable {o : UpdateOptions} {limit : Nat} {bs : Bytes}

theorem formatContents_of_limit (hlimit : o.limit = .ok limit) :
    formatContents o bs = canonicalizeDocument o.order o.layout limit (.bytes bs) := by
  rw [formatContents, hlimit]
  rfl

/-- The outcome for contents that have a canonical form. -/
def UpdateOptions.formatted (o : UpdateOptions) (bs output : Bytes) : FileOutcome :=
  .formatted output (digestBytes output) (output != bs) (o.write && output != bs)

theorem outcomeOf_of_ok {output : Bytes} (h : formatContents o bs = .ok output) :
    outcomeOf o bs = .ok (o.formatted bs output) := by
  rw [outcomeOf, h]
  rfl

theorem written?_formatted_of_changed {output : Bytes} (hwrite : o.write = true) (hchanged : output ≠ bs) :
    (o.formatted bs output).written? = some output := by
  have hne : (output != bs) = true := bne_iff_ne.mpr hchanged
  rw [UpdateOptions.formatted, hwrite, hne]
  rfl

theorem written?_formatted_of_kept {output : Bytes} (h : o.write = false ∨ output = bs) :
    (o.formatted bs output).written? = none := by
  have hkept : (o.write && output != bs) = false := by
    rcases h with hwrite | hsame
    · rw [hwrite, Bool.false_and]
    · rw [hsame, bne_self_eq_false, Bool.and_false]
  rw [UpdateOptions.formatted, hkept]
  rfl

theorem outcomeOf_of_malformed {e : ParseError} (h : formatContents o bs = .error (.malformed e)) :
    outcomeOf o bs = .ok (.malformed e) := by
  rw [outcomeOf, h]

theorem outcomeOf_of_error {q : Problem} (h : formatContents o bs = .error q)
    (hq : ∀ e, q ≠ .malformed e) : outcomeOf o bs = .error q := by
  rw [outcomeOf, h]
  split
  · rename_i heq
    cases heq
  · rename_i e heq
    exact absurd (Except.error.inj heq) (hq e)
  · rename_i heq
    rw [Except.error.inj heq]

end Contents

/-! ### One file -/

section Steps

variable {o : UpdateOptions} {r : Replacement} {p : Path} {fs : FileSystem} {place : List Text} {f : File}
  {outcome : FileOutcome}

theorem updateFile_of_read_error {e : FileProblem} (h : fs.read p = .error e) :
    updateFile o r p fs = (.error e, fs) := by
  rw [updateFile, h]

theorem updateFile_of_outcome_error (hread : fs.read p = .ok (place, f)) {q : Problem}
    (h : outcomeOf o f.bytes = .error q) : updateFile o r p fs = (.error (.document q), fs) := by
  rw [updateFile, hread]
  simp only [h]

theorem updateFile_of_unwritten (hread : fs.read p = .ok (place, f))
    (h : outcomeOf o f.bytes = .ok outcome) (hwritten : outcome.written? = none) :
    updateFile o r p fs = (.ok ⟨p.toText, outcome⟩, fs) := by
  rw [updateFile, hread]
  simp only [h, hwritten]

theorem updateFile_of_replaced (hread : fs.read p = .ok (place, f))
    (h : outcomeOf o f.bytes = .ok outcome) {output : Bytes} (hwritten : outcome.written? = some output)
    (hreplace : CanReplace r p place fs) :
    updateFile o r p fs = (.ok ⟨p.toText, outcome⟩, fs.setFile place ⟨f.mode, output⟩) := by
  rw [updateFile, hread]
  simp only [h, hwritten, replaceFile_of_canReplace hreplace]

theorem updateFile_of_unreplaced (hread : fs.read p = .ok (place, f))
    (h : outcomeOf o f.bytes = .ok outcome) {output : Bytes} (hwritten : outcome.written? = some output)
    (hreplace : ¬ CanReplace r p place fs) :
    ∃ e, updateFile o r p fs = (.error e, fs) ∧ e.isInputOutput = true := by
  obtain ⟨e, hfailed, he⟩ := replaceFile_of_not_canReplace ⟨f.mode, output⟩ hreplace
  refine ⟨e, ?_, he⟩
  rw [updateFile, hread]
  simp only [h, hwritten, hfailed]

theorem checkIndent_ne_malformed {i : Indent} {q : Problem} (h : checkIndent i = .error q) (e : ParseError) :
    q ≠ .malformed e := by
  rcases checkIndent_eq_error h with rfl | ⟨rfl, -⟩ <;> simp

/-- The indentation cannot be made, whatever the document holds. -/
theorem updateFile_of_wide (hread : fs.read p = .ok (place, f)) {limit : Nat} (hlimit : o.limit = .ok limit)
    {v : Value} (hparse : parse limit (.bytes f.bytes) = .ok v) {q : Problem}
    (hindent : checkIndent (o.layout.getD {}).indent = .error q) :
    updateFile o r p fs = (.error (.document q), fs) := by
  have hformat : formatContents o f.bytes = .error q := by
    rw [formatContents_of_limit hlimit, canonicalizeDocument_eq_error hindent hparse]
  exact updateFile_of_outcome_error hread (outcomeOf_of_error hformat (checkIndent_ne_malformed hindent))

end Steps

/-! ### All or nothing -/

/-- One file is another one, and nothing else has changed. -/
structure FileSystem.OnlyFileChanged (place : List Text) (new : File) (fs fs' : FileSystem) : Prop where
  home : fs'.home = fs.home
  directories : fs'.directories = fs.directories
  places : fs'.places = fs.places
  target : fs'.fileAt? place = some new
  others : ∀ q, q ≠ place → fs'.fileAt? q = fs.fileAt? q

theorem FileSystem.onlyFileChanged_setFile {fs : FileSystem} {place : List Text} {old : File}
    (h : fs.fileAt? place = some old) (new : File) : OnlyFileChanged place new fs (fs.setFile place new) where
  home := home_setFile fs place new
  directories := directories_setFile fs place new
  places := places_setFile fs place (by rw [h, Option.isSome_some])
  target := by rw [fileAt?_setFile, if_pos rfl]
  others q hq := by rw [fileAt?_setFile, if_neg hq]

/-- Why a file is not updated: the path is not the name of a file, there is no such file, the nesting limit is
refused, the indentation cannot be made, or the file cannot be replaced. -/
inductive UpdateFailure (o : UpdateOptions) (r : Replacement) (p : Path) (fs : FileSystem) :
    FileProblem → Prop where
  | noName (e : FileProblem) (name : checkName p = .error e) : UpdateFailure o r p fs e
  | unreadable (e : FileProblem) (name : checkName p = .ok ()) (read : fs.read p = .error e)
      (kind : e.isInputOutput = true) : UpdateFailure o r p fs e
  | noLimit (place : List Text) (f : File) (q : Problem) (read : fs.read p = .ok (place, f))
      (limit : o.limit = .error q) : UpdateFailure o r p fs (.document q)
  | tooWide (place : List Text) (f : File) (limit : Nat) (v : Value) (q : Problem)
      (read : fs.read p = .ok (place, f)) (limited : o.limit = .ok limit)
      (parsed : parse limit (.bytes f.bytes) = .ok v)
      (indent : checkIndent (o.layout.getD {}).indent = .error q) : UpdateFailure o r p fs (.document q)
  | unreplaced (place : List Text) (f : File) (limit : Nat) (output : Bytes) (e : FileProblem)
      (read : fs.read p = .ok (place, f)) (limited : o.limit = .ok limit)
      (formatted : canonicalizeDocument o.order o.layout limit (.bytes f.bytes) = .ok output)
      (write : o.write = true) (changed : output ≠ f.bytes) (replace : ¬ CanReplace r p place fs)
      (kind : e.isInputOutput = true) : UpdateFailure o r p fs e

theorem depthLimit_ne_malformed {depth : Datum} {q : Problem} (h : depthLimit depth = .error q)
    (e : ParseError) : q ≠ .malformed e := by
  unfold depthLimit at h
  split at h
  · split at h
    · obtain rfl := Except.error.inj h
      simp
    · cases h
  · obtain rfl := Except.error.inj h
    simp

/-- Updating a file is all or nothing. If it fails, the file system is exactly what it was. If not, the report
says what the contents are worth, and only a file that is to be written and is not in canonical form changes:
it holds the reported output, under the permission bits that it had. -/
theorem updateFile_all_or_nothing (order : Option SortOptions) (layout : Option LayoutOptions)
    (depth : Datum) (write : Bool) (r : Replacement) (p : Path) (fs : FileSystem) :
    let o : UpdateOptions := ⟨order, layout, depthLimit depth, write⟩
    (∃ e, updateFile o r p fs = (.error e, fs) ∧ UpdateFailure o r p fs e)
    ∨ ∃ place f limit report fs', fs.read p = .ok (place, f) ∧ depthLimit depth = .ok limit
      ∧ updateFile o r p fs = (.ok report, fs') ∧ report.path = p.toText
      ∧ ((∃ e, parse limit (.bytes f.bytes) = .error (.malformed e) ∧ report.outcome = .malformed e
          ∧ fs' = fs)
        ∨ ∃ v output, parse limit (.bytes f.bytes) = .ok v
          ∧ canonicalizeDocument order layout limit (.bytes f.bytes) = .ok output
          ∧ report.outcome
            = .formatted output (digestBytes output) (output != f.bytes) (write && output != f.bytes)
          ∧ (write = false ∨ output = f.bytes → fs' = fs)
          ∧ (write = true → output ≠ f.bytes → OnlyFileChanged place ⟨f.mode, output⟩ fs fs')) := by
  intro o
  cases hname : checkName p with
  | error e => exact .inl ⟨e, updateFile_of_read_error (read_of_checkName hname), .noName e hname⟩
  | ok _ =>
  cases hread : fs.read p with
  | error e =>
    exact .inl ⟨e, updateFile_of_read_error hread, .unreadable e hname hread (isInputOutput_of_read hname hread)⟩
  | ok found =>
  obtain ⟨place, f⟩ := found
  cases hlimit : depthLimit depth with
  | error q =>
    have hformat : formatContents o f.bytes = .error q := by
      rw [formatContents]
      simp only [o, hlimit, error_bind]
    have houtcome := outcomeOf_of_error hformat (depthLimit_ne_malformed hlimit)
    exact .inl ⟨_, updateFile_of_outcome_error hread houtcome, .noLimit place f q hread hlimit⟩
  | ok limit =>
  have hformat : formatContents o f.bytes = canonicalizeDocument order layout limit (.bytes f.bytes) :=
    formatContents_of_limit hlimit
  cases hparse : parse limit (.bytes f.bytes) with
  | error q =>
    obtain ⟨e, rfl⟩ := exists_malformed_of_parse (by simp) hparse
    rw [canonicalizeDocument_of_parse_error order layout hparse] at hformat
    have hupdate : updateFile o r p fs = (.ok ⟨p.toText, .malformed e⟩, fs) :=
      updateFile_of_unwritten hread (outcomeOf_of_malformed hformat) rfl
    exact .inr ⟨place, f, limit, _, fs, rfl, rfl, hupdate, rfl, .inl ⟨e, hparse, rfl, rfl⟩⟩
  | ok v =>
  rcases Indent.fits_or (layout.getD {}).indent with hfits | ⟨q, hindent⟩
  · have hcanonical := @canonicalizeDocument_eq_ok order _ _ _ _ hfits hparse
    generalize canonicalOctets (order.getD {}) (layout.getD {}) v = output at hcanonical
    rw [hcanonical] at hformat
    have houtcome := outcomeOf_of_ok hformat
    by_cases hkept : write = false ∨ output = f.bytes
    · have hupdate := updateFile_of_unwritten (r := r) hread houtcome (written?_formatted_of_kept hkept)
      refine .inr ⟨place, f, limit, _, fs, rfl, rfl, hupdate, rfl,
        .inr ⟨v, output, hparse, hcanonical, rfl, fun _ => rfl, ?_⟩⟩
      intro hwrite hchanged
      rcases hkept with hoff | hsame
      · exact absurd hwrite (by simp [hoff])
      · exact absurd hsame hchanged
    · obtain ⟨hwrite, hchanged⟩ := not_or.mp hkept
      rw [Bool.not_eq_false] at hwrite
      have hwritten := written?_formatted_of_changed (o := o) hwrite hchanged
      by_cases hreplace : CanReplace r p place fs
      · refine .inr ⟨place, f, limit, _, _, rfl, rfl, updateFile_of_replaced hread houtcome hwritten hreplace,
          rfl, .inr ⟨v, output, hparse, hcanonical, rfl, fun h => absurd h hkept, fun _ _ => ?_⟩⟩
        exact onlyFileChanged_setFile (place_of_read hread).2 _
      · obtain ⟨e, hupdate, he⟩ := updateFile_of_unreplaced hread houtcome hwritten hreplace
        exact .inl ⟨e, hupdate,
          .unreplaced place f limit output e hread hlimit hcanonical hwrite hchanged hreplace he⟩
  · exact .inl ⟨_, updateFile_of_wide hread hlimit hparse hindent,
      .tooWide place f limit v q hread hlimit hparse hindent⟩

/-- A document of one octet. -/
theorem parse_zero (limit : Nat) : parse limit (.bytes [0x30]) = .ok (.number (Text.ofChars ['0'])) := by
  have hv : (Value.number (Text.ofChars ['0'])).WellFormed := by
    rw [Value.WellFormed]
    decide
  exact parse_compact hv (Nat.zero_le limit)

/-- No string is as long as this indentation: a file that can be read and replaced is not updated, and the
reason lies neither in the file system nor in the document. -/
theorem not_updateFile_of_countTooLarge :
    let name : Text := Text.ofChars ['a']
    let fs : FileSystem := { files := [([name], ⟨0o644, [0x30]⟩)] }
    let layout : LayoutOptions := { indent := .spaces 0x8000000000000000 }
    let o : UpdateOptions := ⟨none, some layout, depthLimit (.scalar (.int 512)), true⟩
    let r : Replacement := { names := [name] }
    fs.read (Path.ofText name) = .ok ([name], ⟨0o644, [0x30]⟩)
      ∧ CanReplace r (Path.ofText name) [name] fs
      ∧ (∃ v, parse 512 (.bytes [0x30]) = .ok v)
      ∧ ¬ ((∃ e, (updateFile o r (Path.ofText name) fs).1 = .error e ∧ e.isInputOutput = true)
        ∨ ∃ report, (updateFile o r (Path.ofText name) fs).1 = .ok report) := by
  intro name fs layout o r
  have hread : fs.read (Path.ofText name) = .ok ([name], ⟨0o644, [0x30]⟩) := rfl
  have hindent : checkIndent (.spaces 0x8000000000000000) = .error .countTooLarge := checkIndent_of_index (by decide)
  have hupdate : updateFile o r (Path.ofText name) fs = (.error (.document .countTooLarge), fs) :=
    updateFile_of_wide hread rfl (parse_zero 512) hindent
  refine ⟨hread, ⟨rfl, _, rfl⟩, ⟨_, parse_zero 512⟩, ?_⟩
  rw [hupdate]
  rintro (⟨e, he, hkind⟩ | ⟨report, hreport⟩)
  · obtain rfl := Except.error.inj he
    cases hkind
  · cases hreport

end CanonJson
