import CanonJson.Proofs.Command.Transcript
/-!
# A second run changes nothing

A run settles the files that it is given, and settled files stay as they are, unless arrays are sorted by
numbers that are respelled. So the same command line finds nothing to do afterwards, and a check finds nothing
to report; what was malformed is malformed still.
-/

namespace CanonJson.Command

open FileSystem

theorem stable_options {f : Flags} {p : Plan} (h : f.Planned p)
    (hsort : f.sortByValue = .absent ∨ f.normalizeNumbers = false ∧ f.rfc8785 = false) : p.options.Stable := by
  rcases hsort with hsort | ⟨hnumbers, hpreset⟩
  · exact .inl (h.arraysBy hsort)
  · exact .inr (h.numbers hnumbers hpreset)

section Settled

variable {p : Plan} {paths : List Path} {fs fs' : FileSystem}
  (hread : ∀ q ∈ paths, ∃ place f, fs.read q = .ok (place, f))
  (hsettles : Settles p.options (paths.map fs.place) fs fs')

include hread hsettles

theorem read_of_settles : ∀ q ∈ paths, ∃ place f, fs'.read q = .ok (place, f) := by
  intro q hq
  obtain ⟨place, f, hfile⟩ := hread q hq
  exact ⟨place, _, hsettles.read_of_read hfile⟩

theorem contents_of_settles {q : Path} (hq : q ∈ paths) :
    fs'.contents q = p.options.settle (fs.contents q) := by
  obtain ⟨place, f, hfile⟩ := hread q hq
  apply hsettles.contents_eq hfile
  rw [(place_of_read hfile).1]
  exact List.mem_map_of_mem hq

end Settled

theorem any_fault_or {paths : List Path} {fault? : Path → Option ParseError} {changes : Path → Bool}
    (hnone : ∀ q ∈ paths, changes q = false) :
    (paths.any fun q => (fault? q).isSome || changes q) = (paths.map fault?).any Option.isSome := by
  rw [Bool.eq_iff_iff, List.any_map]
  simp only [List.any_eq_true, Function.comp_apply, Bool.or_eq_true]
  constructor
  · intro h
    obtain ⟨q, hq, hfault | hchanges⟩ := h
    · exact ⟨q, hq, hfault⟩
    · rw [hnone q hq] at hchanges
      cases hchanges
  · intro h
    obtain ⟨q, hq, hfault⟩ := h
    exact ⟨q, hq, .inl hfault⟩

section Kept

variable {s : Surroundings} {args files : List Text} {stdin : Bytes} {fs : FileSystem} {f : Flags} {p : Plan}
  (hargs : readArguments args = .ok (.format f files)) (hplan : f.plan = .ok p) (hfiles : files ≠ [])
  (hdigest : f.digest = false)
  (hready : ∀ q ∈ files.map Path.ofText, p.options.Ready p.limit (fs.contents q))
  (hread : ∀ q ∈ files.map Path.ofText, ∃ place f, fs.read q = .ok (place, f))
  (hkept : ∀ q ∈ files.map Path.ofText, p.options.settle (fs.contents q) = fs.contents q)

include hargs hplan hfiles hdigest hready hread hkept

/-- A run on settled files has nothing to do. -/
theorem run_of_kept (hcheck : f.check = false) :
    (run s args stdin fs).exit
        = .code (exitCode ((files.map Path.ofText).map fun q => p.options.fault? (fs.contents q)))
      ∧ (run s args stdin fs).files = fs := by
  have hplanned := planned_of_plan hplan
  have hbatch := updateEach_of_kept hready s.replacement hread (.inr hkept)
  have hrun := runFiles_plain (hplanned.digest.trans hdigest) hplanned.jobs (hplanned.check.trans hcheck) hbatch
  rw [run_files hargs hplan hfiles]
  simpa only [List.map_map, Function.comp_def, fault?_report] using hrun

/-- A check of settled files has nothing to report but malformed documents. -/
theorem run_check_of_kept :
    (run s (Text.ofString "--check" :: args) stdin fs).exit
        = .code (exitCode ((files.map Path.ofText).map fun q => p.options.fault? (fs.contents q)))
      ∧ (run s (Text.ofString "--check" :: args) stdin fs).files = fs
      ∧ (run s (Text.ofString "--check" :: args) stdin fs).stdout
        = octets (if p.quiet then [] else countLine 0 files.length) := by
  have hnone : ∀ q ∈ files.map Path.ofText, p.options.changes fs q = false := by
    intro q hq
    rw [UpdateOptions.changes, hkept q hq, bne_self_eq_false]
  have hfilter : (files.map Path.ofText).filter (p.options.changes fs) = [] := by
    apply List.filter_eq_nil_iff.mpr
    intro q hq
    rw [hnone q hq]
    exact Bool.false_ne_true
  have hcount : (files.map Path.ofText).countP (p.options.changes fs) = 0 := by
    rw [List.countP_eq_length_filter, hfilter, List.length_nil]
  have hprint : p.quiet = false → ∀ q ∈ files.map Path.ofText, p.options.changes fs q = true →
      q.toText.SurrogateFree := by
    intro _ q hq hchanged
    rw [hnone q hq] at hchanged
    cases hchanged
  rw [run_check hargs hplan hfiles hdigest hready hread hprint, hfilter, hcount, any_fault_or hnone]
  exact ⟨rfl, rfl, rfl⟩

end Kept

/-- After a run of the program, the same run and the check before it leave all files as they are, and end as
the first run did: well if all documents could be read, and badly otherwise. -/
theorem second_run_changes_nothing (s : Surroundings) (args : List Text) (stdin : Bytes) (fs : FileSystem)
    (flags : Flags) (files : List Text) (plan : Plan)
    (hargs : readArguments args = .ok (.format flags files)) (hplan : flags.plan = .ok plan)
    (hfiles : files ≠ []) (hcheck : flags.check = false) (hdigest : flags.digest = false)
    (hsort : flags.sortByValue = .absent ∨ flags.normalizeNumbers = false ∧ flags.rfc8785 = false)
    (hindent : (∃ name ∈ files, ∃ v, parse plan.limit (.bytes (fs.contents (Path.ofText name))) = .ok v) →
      plan.layout.indent.Fits)
    (hwork : Workable plan.options s.replacement (files.map Path.ofText) fs) :
    let first := run s args stdin fs
    ∃ n, first.exit = .code n ∧ (n = 0 ∨ n = 1)
      ∧ (n = 0 ↔ ∀ name ∈ files, ∃ v, parse plan.limit (.bytes (fs.contents (Path.ofText name))) = .ok v)
      ∧ ∀ (s' : Surroundings) (stdin' : Bytes),
        (run s' args stdin' first.files).files = first.files
          ∧ (run s' args stdin' first.files).exit = .code n
          ∧ (run s' (Text.ofString "--check" :: args) stdin' first.files).files = first.files
          ∧ (run s' (Text.ofString "--check" :: args) stdin' first.files).exit = .code n
          ∧ (run s' (Text.ofString "--check" :: args) stdin' first.files).stdout
            = octets (if plan.quiet then [] else countLine 0 files.length) := by
  intro first
  have hready := ready_of_exists hindent
  have hstable := stable_options (planned_of_plan hplan) hsort
  obtain ⟨hexit, hsettles⟩ := run_plain hargs hplan hfiles hdigest hready hcheck hwork (.inr hstable)
  have hread' := read_of_settles hwork.readable hsettles
  have hcontents := fun q => @contents_of_settles plan _ _ _ hwork.readable hsettles q
  have hkept : ∀ q ∈ files.map Path.ofText, plan.options.settle (first.files.contents q) = first.files.contents q := by
    intro q hq
    rw [hcontents q hq, (hready q hq).settle_settle hstable]
  have hready' : ∀ q ∈ files.map Path.ofText, plan.options.Ready plan.limit (first.files.contents q) := by
    intro q hq
    rw [hcontents q hq]
    exact (hready q hq).settled
  -- The faults are the same before and after, so that every run ends with the same code.
  have hfaults : (files.map Path.ofText).map (fun q => plan.options.fault? (first.files.contents q))
      = (files.map Path.ofText).map (fun q => plan.options.fault? (fs.contents q)) := by
    apply List.map_congr_left
    intro q hq
    rw [hcontents q hq, (hready q hq).fault?_settle]
  refine ⟨_, hexit, exitCode_cases _, ?_, ?_⟩
  · rw [exitCode_eq_zero_iff, List.map_map, List.forall_mem_map]
    apply forall₂_congr
    intro name hname
    exact (hready _ (List.mem_map_of_mem hname)).fault?_eq_none_iff
  · intro s' stdin'
    have hsecond := @run_of_kept s' _ _ stdin' _ _ _ hargs hplan hfiles hdigest hready' hread' hkept hcheck
    have hchecked := @run_check_of_kept s' _ _ stdin' _ _ _ hargs hplan hfiles hdigest hready' hread' hkept
    rw [hfaults] at hsecond hchecked
    exact ⟨hsecond.2, hsecond.1, hchecked.2.1, hchecked.1, hchecked.2.2⟩

/-- One file out of canonical form that is named twice, and a malformed one between. -/
theorem second_run_changes_nothing_repeated :
    let a : Text := Text.ofChars ['a']
    let b : Text := Text.ofChars ['b']
    let s : Surroundings := { replacement := { names := [a] } }
    let fs : FileSystem := { files := [([a], ⟨0o644, [0x30]⟩), ([b], ⟨0o600, []⟩)] }
    Workable ({} : Plan).options s.replacement ([a, b, a].map Path.ofText) fs
      ∧ ∃ n, (run s [a, b, a] [] fs).exit = .code n
        ∧ ∀ (s' : Surroundings) (stdin' : Bytes),
          (run s' [a, b, a] stdin' (run s [a, b, a] [] fs).files).files = (run s [a, b, a] [] fs).files
            ∧ (run s' [a, b, a] stdin' (run s [a, b, a] [] fs).files).exit = .code n := by
  intro a b s fs
  have hpaths : ∀ q ∈ [a, b, a].map Path.ofText, q = Path.ofText a ∨ q = Path.ofText b := by
    simp
  have hwork : Workable ({} : Plan).options s.replacement ([a, b, a].map Path.ofText) fs := by
    apply Workable.of_canReplace
    intro q hq
    rcases hpaths q hq with rfl | rfl
    · exact ⟨[a], _, rfl, rfl, _, rfl⟩
    · exact ⟨[b], _, rfl, rfl, _, rfl⟩
  obtain ⟨n, hexit, -, -, hagain⟩ := second_run_changes_nothing s [a, b, a] [] fs {} [a, b, a] {} rfl rfl
    (by simp) rfl rfl (.inl rfl) (fun _ => by decide) hwork
  exact ⟨hwork, n, hexit, fun s' stdin' => ⟨(hagain s' stdin').1, (hagain s' stdin').2.1⟩⟩

/-- No string is as long as this indentation, so that no run ends well although the document can be read. And
where the file cannot be replaced the first time, the second run may change it. -/
theorem not_second_run_of_countTooLarge :
    let a : Text := Text.ofChars ['a']
    let wide : List Text := [Text.ofString "--indent", Text.ofString "9223372036854775808", a]
    let s : Surroundings := { replacement := { names := [a] } }
    let refusing : Surroundings := { replacement := { names := [a], refused := some .rename } }
    let fs : FileSystem := { files := [([a], ⟨0o644, [0x30]⟩)] }
    (∃ v, parse 512 (.bytes [0x30]) = .ok v)
      ∧ (run s wide [] (run s wide [] fs).files).exit ≠ .code 0
      ∧ (run s [a] [] (run refusing [a] [] fs).files).files.fileAt? [a]
        ≠ (run refusing [a] [] fs).files.fileAt? [a] := by
  intro a wide s refusing fs
  have hread : fs.read (Path.ofText a) = .ok ([a], ⟨0o644, [0x30]⟩) := rfl
  refine ⟨⟨_, parse_zero 512⟩, ?_, ?_⟩
  · have hargs : readArguments wide
        = .ok (.format { indent := .given (.spaces 9223372036854775808) } [a]) := rfl
    have hplan : Flags.plan { indent := .given (.spaces 9223372036854775808) }
        = .ok { layout := { indent := .spaces 9223372036854775808 } } := rfl
    have hindent : checkIndent (.spaces 9223372036854775808) = .error .countTooLarge :=
      checkIndent_of_index (by decide)
    have hwide := @run_file_of_wide s wide _ _ [] fs a _ _ hargs hplan hread _ (parse_zero 512) _ hindent
    rw [hwide.2, hwide.1]
    simp
  · have hchanged : ({} : Plan).options.settle [0x30] ≠ [0x30] := UpdateOptions.settle_zero_ne 512 true
    have hrefused : ¬ CanReplace refusing.replacement (Path.ofText a) [a] fs := by
      intro h
      cases h.1
    obtain ⟨e, -, -, hfirst⟩ :=
      @run_file_of_refused refusing [a] {} {} [] fs a _ _ rfl rfl hread rfl rfl (by decide) hchanged hrefused
    have hreplace : CanReplace s.replacement (Path.ofText a) [a] fs := ⟨rfl, _, rfl⟩
    have hsecond := updateFile_of_changed (ready_of_fits (by decide) _) hread rfl hchanged hreplace
    have hplain := @runFiles_plain s {} [Path.ofText a] fs rfl (by decide) rfl _ _ (updateEach_singleton hsecond)
    rw [hfirst, @run_files s [a] {} {} [] fs [a] rfl rfl (by simp), List.map_singleton, hplain.2,
      fileAt?_setFile, if_pos rfl, (place_of_read hread).2]
    intro h
    exact hchanged (congrArg File.bytes (Option.some.inj h))

end CanonJson.Command
