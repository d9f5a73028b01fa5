import CanonJson.Proofs.Files.Update
/-!
# Updating files one after the other

As long as there is memory for the indentation, every document has an outcome, which is a function of its
contents; a malformed one has it in any case. A batch that writes settles the contents of each file it is given; a
second batch finds them settled. What a path leads to does not change on the way, since only contents do, so a
batch can be followed file by file from what was there before it.
-/

namespace CanonJson

open FileSystem

/-! ### Contents and what becomes of them -/

theorem parse_bytes_cases (limit : Nat) (bs : Bytes) :
    (∃ e, parse limit (.bytes bs) = .error (.malformed e)) ∨ ∃ v, parse limit (.bytes bs) = .ok v := by
  cases h : parse limit (.bytes bs) with
  | error q =>
    obtain ⟨e, rfl⟩ := exists_malformed_of_parse (by simp) h
    exact .inl ⟨e, rfl⟩
  | ok v => exact .inr ⟨v, rfl⟩

namespace UpdateOptions

/-- What is wrong with contents that are malformed. -/
def fault? (o : UpdateOptions) (bs : Bytes) : Option ParseError :=
  match formatContents o bs with
  | .error (.malformed e) => some e
  | _ => none

/-- What contents become when they are written: their canonical form, if they have one. -/
def settle (o : UpdateOptions) (bs : Bytes) : Bytes :=
  match formatContents o bs with
  | .ok output => output
  | .error _ => bs

def outcome (o : UpdateOptions) (bs : Bytes) : FileOutcome :=
  match o.fault? bs with
  | some e => .malformed e
  | none => o.formatted bs (o.settle bs)

/-- The options can be used on a document: there is a nesting limit, and memory for the indentation unless the
document is malformed. -/
structure Ready (o : UpdateOptions) (limit : Nat) (bs : Bytes) : Prop where
  limited : o.limit = .ok limit
  indent : ∀ v, parse limit (.bytes bs) = .ok v → (o.layout.getD {}).indent.Fits

/-- What was written is in canonical order: arrays are not sorted by numbers that are respelled. -/
def Stable (o : UpdateOptions) : Prop :=
  (o.order.getD {}).arraysBy = none ∨ (o.layout.getD {}).numbers = .verbatim

variable {o : UpdateOptions} {limit : Nat} {bs : Bytes} {e : ParseError} {v : Value}

section Ready

variable (ho : o.Ready limit bs)

include ho

theorem Ready.formatContents_of_malformed (h : parse limit (.bytes bs) = .error (.malformed e)) :
    formatContents o bs = .error (.malformed e) := by
  rw [formatContents_of_limit ho.limited, canonicalizeDocument_of_parse_error _ _ h]

theorem Ready.formatContents_of_parse (h : parse limit (.bytes bs) = .ok v) :
    formatContents o bs = .ok (canonicalOctets (o.order.getD {}) (o.layout.getD {}) v) := by
  rw [formatContents_of_limit ho.limited, canonicalizeDocument_eq_ok (ho.indent v h) h]

theorem Ready.fault?_of_malformed (h : parse limit (.bytes bs) = .error (.malformed e)) :
    o.fault? bs = some e := by
  rw [fault?, ho.formatContents_of_malformed h]

theorem Ready.fault?_of_parse (h : parse limit (.bytes bs) = .ok v) : o.fault? bs = none := by
  rw [fault?, ho.formatContents_of_parse h]

theorem Ready.settle_of_malformed (h : parse limit (.bytes bs) = .error (.malformed e)) :
    o.settle bs = bs := by
  rw [settle, ho.formatContents_of_malformed h]

theorem Ready.settle_of_parse (h : parse limit (.bytes bs) = .ok v) :
    o.settle bs = canonicalOctets (o.order.getD {}) (o.layout.getD {}) v := by
  rw [settle, ho.formatContents_of_parse h]

theorem Ready.fault?_eq_none_iff : o.fault? bs = none ↔ ∃ v, parse limit (.bytes bs) = .ok v := by
  constructor
  · intro hnone
    rcases parse_bytes_cases limit bs with ⟨e, h⟩ | h
    · rw [ho.fault?_of_malformed h] at hnone
      cases hnone
    · exact h
  · intro h
    obtain ⟨v, h⟩ := h
    exact ho.fault?_of_parse h

theorem Ready.isSome_fault?_iff :
    (o.fault? bs).isSome = true ↔ ∃ e, parse limit (.bytes bs) = .error (.malformed e) := by
  rcases parse_bytes_cases limit bs with ⟨e, h⟩ | ⟨v, h⟩
  · simp [ho.fault?_of_malformed h, h]
  · simp [ho.fault?_of_parse h, h]

theorem Ready.outcomeOf_eq : outcomeOf o bs = .ok (o.outcome bs) := by
  rcases parse_bytes_cases limit bs with ⟨e, h⟩ | ⟨v, h⟩
  · rw [outcomeOf_of_malformed (ho.formatContents_of_malformed h), outcome, ho.fault?_of_malformed h]
  · rw [outcomeOf_of_ok (ho.formatContents_of_parse h), outcome, ho.fault?_of_parse h, ho.settle_of_parse h]

theorem Ready.outcome_of_parse (h : parse limit (.bytes bs) = .ok v) :
    o.outcome bs = o.formatted bs (canonicalOctets (o.order.getD {}) (o.layout.getD {}) v) := by
  rw [outcome, ho.fault?_of_parse h, ho.settle_of_parse h]

theorem Ready.settled : o.Ready limit (o.settle bs) := by
  rcases parse_bytes_cases limit bs with ⟨e, h⟩ | ⟨v, h⟩
  · rwa [ho.settle_of_malformed h]
  · exact ⟨ho.limited, fun _ _ => ho.indent v h⟩

/-- Settled contents have the same faults: none, or those of contents that stay as they are. -/
theorem Ready.fault?_settle : o.fault? (o.settle bs) = o.fault? bs := by
  rcases parse_bytes_cases limit bs with ⟨e, h⟩ | ⟨v, h⟩
  · rw [ho.settle_of_malformed h]
  · have hread := parse_canonicalOctets (o.order.getD {}) (o.layout.getD {}) (wellFormed_of_parse h)
      (depth_le_of_parse h)
    rw [← ho.settle_of_parse h] at hread
    rw [ho.fault?_of_parse h, ho.settled.fault?_of_parse hread]

theorem Ready.settle_settle (hstable : o.Stable) : o.settle (o.settle bs) = o.settle bs := by
  rcases parse_bytes_cases limit bs with ⟨e, h⟩ | ⟨v, h⟩
  · rw [ho.settle_of_malformed h, ho.settle_of_malformed h]
  · have hagain := canonicalizeDocument_canonicalOctets hstable (ho.indent v h) h
    rw [← formatContents_of_limit ho.limited] at hagain
    rw [ho.settle_of_parse h, settle, hagain]

end Ready

theorem settle_of_fault? (h : o.fault? bs = some e) : o.settle bs = bs := by
  rw [settle]
  split
  · rename_i output hformat
    rw [fault?, hformat] at h
    cases h
  · rfl

theorem written?_outcome_of_kept (h : o.write = false ∨ o.settle bs = bs) :
    (o.outcome bs).written? = none := by
  rw [outcome]
  split
  · rfl
  · exact written?_formatted_of_kept h

theorem written?_outcome_of_changed (hwrite : o.write = true) (hchanged : o.settle bs ≠ bs) :
    (o.outcome bs).written? = some (o.settle bs) := by
  rw [outcome]
  split
  · rename_i e hfault
    exact absurd (settle_of_fault? hfault) hchanged
  · exact written?_formatted_of_changed hwrite hchanged

theorem settle_ne_iff : o.settle bs ≠ bs ↔ ∃ output, formatContents o bs = .ok output ∧ output ≠ bs := by
  rw [settle]
  cases formatContents o bs with
  | error q => simp
  | ok output => simp

/-- A document that lacks nothing but the line break at its end. -/
theorem settle_zero (limit : Nat) (write : Bool) :
    settle ⟨some {}, some {}, .ok limit, write⟩ [0x30] = [0x30, 0x0A] := by
  have hindent : ({} : LayoutOptions).indent.Fits := by decide
  have hoctets : canonicalOctets {} {} (.number (Text.ofChars ['0'])) = [0x30, 0x0A] := by decide
  have ho : Ready ⟨some {}, some {}, .ok limit, write⟩ limit [0x30] := ⟨rfl, fun _ _ => hindent⟩
  rw [ho.settle_of_parse (parse_zero limit)]
  exact hoctets

theorem settle_zero_ne (limit : Nat) (write : Bool) :
    settle ⟨some {}, some {}, .ok limit, write⟩ [0x30] ≠ [0x30] := by
  rw [settle_zero]
  decide

end UpdateOptions

/-! ### Reports -/

/-- The fault of the document that a report is on. -/
def FileReport.fault? (r : FileReport) : Option ParseError :=
  match r.outcome with
  | .malformed e => some e
  | .formatted .. => none

def FileSystem.contents (fs : FileSystem) (p : Path) : Bytes :=
  match fs.read p with
  | .ok (_, f) => f.bytes
  | .error _ => []

theorem FileSystem.contents_of_read {fs : FileSystem} {p : Path} {place : List Text} {f : File}
    (h : fs.read p = .ok (place, f)) : fs.contents p = f.bytes := by
  rw [contents, h]

/-- The report on the file that a path leads to. -/
def UpdateOptions.report (o : UpdateOptions) (fs : FileSystem) (p : Path) : FileReport :=
  ⟨p.toText, o.outcome (fs.contents p)⟩

/-- Whether the file that a path leads to is not settled. -/
def UpdateOptions.changes (o : UpdateOptions) (fs : FileSystem) (p : Path) : Bool :=
  o.settle (fs.contents p) != fs.contents p

section Reports

variable (o : UpdateOptions) (fs : FileSystem) (p : Path)

theorem fault?_report : (o.report fs p).fault? = o.fault? (fs.contents p) := by
  rw [FileReport.fault?, UpdateOptions.report, UpdateOptions.outcome]
  cases o.fault? (fs.contents p) with
  | some e => rfl
  | none => rfl

theorem isChanged_report : (o.report fs p).isChanged = o.changes fs p := by
  rw [FileReport.isChanged, UpdateOptions.report, UpdateOptions.outcome, UpdateOptions.changes]
  cases h : o.fault? (fs.contents p) with
  | some e => rw [UpdateOptions.settle_of_fault? h, bne_self_eq_false]
  | none => rfl

end Reports

/-! ### One file of a batch -/

section Step

variable {o : UpdateOptions} {limit : Nat} {r : Replacement} {p : Path} {fs : FileSystem} {place : List Text}
  {f : File} (ho : o.Ready limit f.bytes) (hread : fs.read p = .ok (place, f))

include ho hread

theorem updateFile_of_kept (hkept : o.write = false ∨ o.settle f.bytes = f.bytes) :
    updateFile o r p fs = (.ok (o.report fs p), fs) := by
  rw [UpdateOptions.report, contents_of_read hread]
  exact updateFile_of_unwritten hread ho.outcomeOf_eq (UpdateOptions.written?_outcome_of_kept hkept)

theorem updateFile_of_changed (hwrite : o.write = true) (hchanged : o.settle f.bytes ≠ f.bytes)
    (hreplace : CanReplace r p place fs) :
    updateFile o r p fs = (.ok (o.report fs p), fs.setFile place ⟨f.mode, o.settle f.bytes⟩) := by
  rw [UpdateOptions.report, contents_of_read hread]
  exact updateFile_of_replaced hread ho.outcomeOf_eq
    (UpdateOptions.written?_outcome_of_changed hwrite hchanged) hreplace

theorem outcome_report_of_parse {v : Value} (h : parse limit (.bytes f.bytes) = .ok v) :
    (o.report fs p).outcome
      = o.formatted f.bytes (canonicalOctets (o.order.getD {}) (o.layout.getD {}) v) := by
  rw [UpdateOptions.report, contents_of_read hread]
  exact ho.outcome_of_parse h

end Step

theorem updateEach_singleton {o : UpdateOptions} {r : Replacement} {p : Path} {fs fs' : FileSystem}
    {report : FileReport} (h : updateFile o r p fs = (.ok report, fs')) :
    updateEach o r [p] fs = (.ok [report], fs') := by
  rw [updateEach, h]
  rfl

/-- A report is about the file that was named. -/
theorem path_of_updateFile {o : UpdateOptions} {r : Replacement} {p : Path} {fs fs' : FileSystem}
    {report : FileReport} (h : updateFile o r p fs = (.ok report, fs')) : report.path = p.toText := by
  unfold updateFile at h
  split at h
  · cases h
  · split at h
    · cases h
    · split at h
      · obtain rfl := Except.ok.inj (Prod.mk.inj h).1
        rfl
      · split at h
        · cases h
        · obtain rfl := Except.ok.inj (Prod.mk.inj h).1
          rfl

/-! ### Batches that change nothing -/

/-- Without writing, or on files that are settled, a batch only reports. -/
theorem updateEach_of_kept {o : UpdateOptions} {limit : Nat} {paths : List Path} {fs : FileSystem}
    (ho : ∀ p ∈ paths, o.Ready limit (fs.contents p)) (r : Replacement)
    (hread : ∀ p ∈ paths, ∃ place f, fs.read p = .ok (place, f))
    (hkept : o.write = false ∨ ∀ p ∈ paths, o.settle (fs.contents p) = fs.contents p) :
    updateEach o r paths fs = (.ok (paths.map (o.report fs)), fs) := by
  induction paths with
  | nil => rfl
  | cons p ps ih =>
    obtain ⟨place, f, hfile⟩ := hread p (by simp)
    have hready : o.Ready limit f.bytes := by
      rw [← contents_of_read hfile]
      exact ho p (by simp)
    have hfirst : o.write = false ∨ o.settle f.bytes = f.bytes := by
      rw [← contents_of_read hfile]
      exact hkept.imp_right fun h => h p (by simp)
    have hrest := ih (fun q hq => ho q (by simp [hq])) (fun q hq => hread q (by simp [hq]))
      (hkept.imp_right fun h q hq => h q (by simp [hq]))
    rw [updateEach, updateFile_of_kept hready hfile hfirst]
    simp only [hrest, List.map_cons]

/-- The indentation cannot be made: a batch ends at the first document that can be read, and has changed nothing
before it. -/
theorem updateEach_of_wide {o : UpdateOptions} {limit : Nat} {paths : List Path} {fs : FileSystem}
    (hlimit : o.limit = .ok limit) {q : Problem} (hindent : checkIndent (o.layout.getD {}).indent = .error q)
    (r : Replacement)
    (hread : ∀ p ∈ paths, ∃ place f, fs.read p = .ok (place, f))
    (hparse : ∃ p ∈ paths, ∃ v, parse limit (.bytes (fs.contents p)) = .ok v) :
    updateEach o r paths fs = (.error (.document q), fs) := by
  induction paths with
  | nil => simp at hparse
  | cons p ps ih =>
    obtain ⟨place, f, hfile⟩ := hread p (by simp)
    rcases parse_bytes_cases limit f.bytes with ⟨e, hmalformed⟩ | ⟨v, hv⟩
    · have hready : o.Ready limit f.bytes := ⟨hlimit, fun v hv => by cases hmalformed.symm.trans hv⟩
      have hfirst := updateFile_of_kept (r := r) hready hfile (.inr (hready.settle_of_malformed hmalformed))
      have hparse' : ∃ q ∈ ps, ∃ v, parse limit (.bytes (fs.contents q)) = .ok v := by
        obtain ⟨q, hq, v, hv⟩ := hparse
        rcases List.mem_cons.mp hq with rfl | hq
        · rw [contents_of_read hfile] at hv
          cases hmalformed.symm.trans hv
        · exact ⟨q, hq, v, hv⟩
      have hrest := ih (fun q hq => hread q (by simp [hq])) hparse'
      rw [updateEach, hfirst]
      simp only [hrest]
    · rw [updateEach, updateFile_of_wide hfile hlimit hv hindent]

/-! ### Batches that write -/

/-- A file with its contents settled. -/
def UpdateOptions.settleFile (o : UpdateOptions) (f : File) : File :=
  ⟨f.mode, o.settle f.bytes⟩

/-- The files at the given places are settled, and nothing else has changed. -/
structure Settles (o : UpdateOptions) (settled : List (List Text)) (fs fs' : FileSystem) : Prop where
  home : fs'.home = fs.home
  directories : fs'.directories = fs.directories
  fileAt? : ∀ q, fs'.fileAt? q
    = if q ∈ settled then (fs.fileAt? q).map o.settleFile else fs.fileAt? q

namespace Settles

variable {o : UpdateOptions} {settled : List (List Text)} {fs fs' fs'' : FileSystem} {place : List Text}
  {f : File}

theorem nil (o : UpdateOptions) (fs : FileSystem) : Settles o [] fs fs :=
  ⟨rfl, rfl, fun _ => by simp⟩

theorem sameShape (h : Settles o settled fs fs') : SameShape fs fs' where
  home := h.home
  directories := h.directories
  isSome_fileAt? q := by
    rw [h.fileAt?]
    split
    · rw [Option.isSome_map]
    · rfl

/-- One place more, which is not settled again afterwards, or to no effect. -/
theorem cons (hfirst : Settles o [place] fs fs') (hrest : Settles o settled fs' fs'')
    (h : place ∉ settled ∨ ∀ f, fs.fileAt? place = some f → o.settle (o.settle f.bytes) = o.settle f.bytes) :
    Settles o (place :: settled) fs fs'' where
  home := hrest.home.trans hfirst.home
  directories := hrest.directories.trans hfirst.directories
  fileAt? q := by
    rw [hrest.fileAt?, hfirst.fileAt?]
    by_cases hq : q = place
    · subst hq
      by_cases hmem : q ∈ settled
      · have hagain := h.resolve_left (not_not_intro hmem)
        cases hfile : fs.fileAt? q with
        | none => simp
        | some f => simp [hmem, UpdateOptions.settleFile, hagain f hfile]
      · simp [hmem]
    · simp [hq]

theorem of_kept (hfile : fs.fileAt? place = some f) (hkept : o.settle f.bytes = f.bytes) :
    Settles o [place] fs fs := by
  refine ⟨rfl, rfl, fun q => ?_⟩
  by_cases hq : q = place
  · subst hq
    simp [hfile, UpdateOptions.settleFile, hkept]
  · simp [hq]

theorem setFile (hfile : fs.fileAt? place = some f) :
    Settles o [place] fs (fs.setFile place ⟨f.mode, o.settle f.bytes⟩) := by
  refine ⟨home_setFile .., directories_setFile .., fun q => ?_⟩
  rw [fileAt?_setFile]
  by_cases hq : q = place
  · subst hq
    simp [hfile, UpdateOptions.settleFile]
  · simp [hq]

/-- What a path leads to afterwards: the same place, with contents as they were or settled. -/
theorem read_of_read (h : Settles o settled fs fs') {p : Path} (hread : fs.read p = .ok (place, f)) :
    fs'.read p = .ok (place, if place ∈ settled then o.settleFile f else f) := by
  obtain ⟨f', hfile', hread'⟩ := h.sameShape.read_of_read hread
  rw [h.fileAt?, (place_of_read hread).2, Option.map_some] at hfile'
  rw [hread']
  split at hfile'
  · rename_i hmem
    rw [if_pos hmem, Option.some.inj hfile']
  · rename_i hmem
    rw [if_neg hmem, Option.some.inj hfile']

theorem contents_eq (h : Settles o settled fs fs') {p : Path} (hread : fs.read p = .ok (place, f))
    (hplace : place ∈ settled) : fs'.contents p = o.settle (fs.contents p) := by
  rw [contents_of_read hread, contents_of_read (h.read_of_read hread), if_pos hplace]
  rfl

/-- A file is another one exactly if its contents were not settled. -/
theorem fileAt?_ne_iff (h : Settles o settled fs fs') {p : Path} (hread : fs.read p = .ok (place, f))
    (hplace : place ∈ settled) : fs'.fileAt? place ≠ fs.fileAt? place ↔ o.changes fs p = true := by
  rw [UpdateOptions.changes, bne_iff_ne]
  apply not_congr
  rw [h.fileAt?, if_pos hplace, (place_of_read hread).2, contents_of_read hread, Option.map_some,
    Option.some.injEq]
  constructor
  · intro hfile
    exact congrArg File.bytes hfile
  · intro hbytes
    rw [UpdateOptions.settleFile, hbytes]

end Settles

/-- A batch can be carried out: every path leads to a file, and the files that are not in canonical form can be
replaced. -/
structure Workable (o : UpdateOptions) (r : Replacement) (paths : List Path) (fs : FileSystem) : Prop where
  readable : ∀ p ∈ paths, ∃ place f, fs.read p = .ok (place, f)
  replaceable : ∀ p ∈ paths, ∀ place f output, fs.read p = .ok (place, f) →
    formatContents o f.bytes = .ok output → output ≠ f.bytes → CanReplace r p place fs

namespace Workable

variable {o : UpdateOptions} {r : Replacement} {p : Path} {paths : List Path} {fs fs' : FileSystem}
  {place : List Text} {f : File}

theorem of_canReplace (h : ∀ q ∈ paths, ∃ place f, fs.read q = .ok (place, f) ∧ CanReplace r q place fs) :
    Workable o r paths fs where
  readable q hq := by
    obtain ⟨place, f, hread, -⟩ := h q hq
    exact ⟨place, f, hread⟩
  replaceable q hq place' f' _ hread' _ _ := by
    obtain ⟨place, f, hread, hreplace⟩ := h q hq
    obtain ⟨rfl, rfl⟩ := Prod.mk.inj (Except.ok.inj (hread.symm.trans hread'))
    exact hreplace

theorem tail (h : Workable o r (p :: paths) fs) : Workable o r paths fs where
  readable q hq := h.readable q (by simp [hq])
  replaceable q hq := h.replaceable q (by simp [hq])

theorem canReplace (h : Workable o r paths fs) (hp : p ∈ paths) (hread : fs.read p = .ok (place, f))
    (hchanged : o.settle f.bytes ≠ f.bytes) : CanReplace r p place fs := by
  cases hformat : formatContents o f.bytes with
  | error q =>
    rw [UpdateOptions.settle, hformat] at hchanged
    exact absurd rfl hchanged
  | ok output =>
    rw [UpdateOptions.settle, hformat] at hchanged
    exact h.replaceable p hp place f output hread hformat hchanged

/-- Settling some files leaves the batch one that can be carried out: a file that is not in canonical form was
so before, or is what one became that was not. -/
theorem of_settles (h : Workable o r paths fs) {settled : List (List Text)}
    (hsettles : Settles o settled fs fs') : Workable o r paths fs' where
  readable p hp := by
    obtain ⟨place, f, hread⟩ := h.readable p hp
    exact ⟨place, _, hsettles.read_of_read hread⟩
  replaceable p hp place' f' output hread' hformat hchanged := by
    obtain ⟨place, f, hread⟩ := h.readable p hp
    have hsame := (hsettles.read_of_read hread).symm.trans hread'
    obtain ⟨rfl, rfl⟩ := Prod.mk.inj (Except.ok.inj hsame)
    have hreplace : CanReplace r p place fs := by
      by_cases hsettled : o.settle f.bytes = f.bytes
      · have hkept : (if place ∈ settled then o.settleFile f else f) = f := by
          rw [UpdateOptions.settleFile, hsettled, ite_self]
        rw [hkept] at hformat hchanged
        exact h.replaceable p hp place f output hread hformat hchanged
      · exact h.canReplace hp hread hsettled
    refine ⟨hreplace.1, ?_⟩
    rw [hsettles.sameShape.freePlace_eq]
    exact hreplace.2

end Workable

section Run

variable {o : UpdateOptions} {limit : Nat} {r : Replacement} {p : Path} {paths : List Path} {fs : FileSystem}
  (hwrite : o.write = true)

include hwrite

/-- One file of a batch is settled and reported on. -/
theorem updateFile_settles (ho : o.Ready limit (fs.contents p)) (hp : p ∈ paths) (hwork : Workable o r paths fs) :
    ∃ fs', updateFile o r p fs = (.ok (o.report fs p), fs') ∧ Settles o [fs.place p] fs fs' := by
  obtain ⟨place, f, hread⟩ := hwork.readable p hp
  obtain ⟨rfl, hfile⟩ := place_of_read hread
  rw [contents_of_read hread] at ho
  by_cases hkept : o.settle f.bytes = f.bytes
  · exact ⟨fs, updateFile_of_kept ho hread (.inr hkept), .of_kept hfile hkept⟩
  · exact ⟨_, updateFile_of_changed ho hread hwrite hkept (hwork.canReplace hp hread hkept), .setFile hfile⟩

/-- A batch settles all its files, and reports on each of them whether it is malformed. A path may come twice,
if settled contents stay as they are. -/
theorem updateEach_settles (ho : ∀ p ∈ paths, o.Ready limit (fs.contents p)) (hwork : Workable o r paths fs)
    (honce : (paths.map fs.place).Nodup ∨ o.Stable) :
    ∃ reports fs', updateEach o r paths fs = (.ok reports, fs') ∧ Settles o (paths.map fs.place) fs fs'
      ∧ reports.map FileReport.fault? = paths.map fun p => o.fault? (fs.contents p) := by
  induction paths generalizing fs with
  | nil => exact ⟨[], fs, rfl, .nil o fs, rfl⟩
  | cons p ps ih =>
    have hready := ho p (by simp)
    obtain ⟨fs', hfirst, hsettles⟩ := updateFile_settles hwrite hready (List.mem_cons_self ..) hwork
    -- The rest of the batch starts from what the first file left, where a path that comes again finds its
    -- contents settled and every other finds them as they were.
    have hplaces : fs'.place = fs.place := funext hsettles.sameShape.place_eq
    have hcontents : ∀ q ∈ ps, fs'.contents q = fs.contents q ∨ fs'.contents q = o.settle (fs.contents q) := by
      intro q hq
      obtain ⟨place, f, hread⟩ := hwork.readable q (by simp [hq])
      rw [contents_of_read hread, contents_of_read (hsettles.read_of_read hread)]
      split
      · exact .inr rfl
      · exact .inl rfl
    have ho' : ∀ q ∈ ps, o.Ready limit (fs'.contents q) := by
      intro q hq
      have hready' := ho q (by simp [hq])
      rcases hcontents q hq with h | h
      · rwa [h]
      · rw [h]
        exact hready'.settled
    have honce' : (ps.map fs'.place).Nodup ∨ o.Stable := by
      rw [hplaces]
      exact honce.imp_left fun h => (List.nodup_cons.mp h).2
    obtain ⟨reports, fs'', hrest, hsettles', hfaults⟩ := ih ho' (hwork.tail.of_settles hsettles) honce'
    rw [hplaces] at hsettles'
    refine ⟨o.report fs p :: reports, fs'', ?_, hsettles.cons hsettles' ?_, ?_⟩
    · rw [updateEach, hfirst]
      simp only [hrest]
    · refine honce.imp (fun h => (List.nodup_cons.mp h).1) fun hstable f hfile => ?_
      obtain ⟨place, f', hread⟩ := hwork.readable p (by simp)
      obtain ⟨rfl, hfile'⟩ := place_of_read hread
      obtain rfl := Option.some.inj (hfile'.symm.trans hfile)
      rw [contents_of_read hread] at hready
      exact hready.settle_settle hstable
    · rw [List.map_cons, List.map_cons, fault?_report, hfaults]
      congr 1
      apply List.map_congr_left
      intro q hq
      rcases hcontents q hq with h | h
      · rw [h]
      · rw [h]
        exact (ho q (by simp [hq])).fault?_settle

end Run

end CanonJson
