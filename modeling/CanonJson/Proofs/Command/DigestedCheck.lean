import CanonJson.Proofs.Command.Agreement
/-!
# A check that prints digests

With a digest, a document that is not in canonical form has its digest printed and no longer makes the run
fail; one that is malformed still does. So a check with digests ends like the check alone if some document is
malformed or all are in canonical form, and otherwise it ends well where the check alone does not. This holds of
the standard input and of files.
-/

namespace CanonJson.Command

open FileSystem

/-! ### Documents -/

section Documents

variable (p : Plan) (bs : Bytes)

/-- The plan reads a document. -/
def Plan.Reads : Prop :=
  ∃ v, parse p.limit (.bytes bs) = .ok v

/-- The plan refuses a document as malformed. -/
def Plan.Refuses : Prop :=
  ∃ e, parse p.limit (.bytes bs) = .error (.malformed e)

/-- The canonical form of a document under a plan. -/
def Plan.canonical : Except Problem Bytes :=
  canonicalizeDocument (some p.order) (some p.layout) p.limit (.bytes bs)

end Documents

/-- The documents that a command line is about: those of the files, or the standard input if there are none. -/
def documents (files : List Text) (stdin : Bytes) (fs : FileSystem) : List Bytes :=
  match files with
  | [] => [stdin]
  | _ => files.map fun name => fs.contents (Path.ofText name)

theorem documents_of_files {files : List Text} (hfiles : files ≠ []) (stdin : Bytes) (fs : FileSystem) :
    documents files stdin fs = (files.map Path.ofText).map fs.contents := by
  cases files with
  | nil => exact absurd rfl hfiles
  | cons name names =>
    rw [List.map_map]
    rfl

/-! ### Runs with digests -/

/-- With a digest only a malformed document fails. -/
theorem failed_printReport_digest (s : Surroundings) {p : Plan} (r : FileReport) (hdigest : p.digest = true) :
    (printReport s p r).failed = r.fault?.isSome := by
  cases h : r.outcome with
  | malformed e => simp only [printReport, FileReport.fault?, h, Option.isSome_some]
  | formatted output digest changed written =>
    rw [printReport_digest s r hdigest h, FileReport.fault?, h]
    rfl

theorem surrogateFree_printReport_digest (s : Surroundings) {p : Plan} (hdigest : p.digest = true)
    {fs : FileSystem} {q : Path} (hname : p.options.fault? (fs.contents q) = none → q.toText.SurrogateFree) :
    (printReport s p (p.options.report fs q)).stdout.SurrogateFree := by
  cases hfault : p.options.fault? (fs.contents q) with
  | some e =>
    have houtcome : (p.options.report fs q).outcome = .malformed e := by
      rw [UpdateOptions.report, UpdateOptions.outcome, hfault]
    simp only [printReport, houtcome]
    exact Text.surrogateFree_nil
  | none =>
    have houtcome : (p.options.report fs q).outcome
        = p.options.formatted (fs.contents q) (p.options.settle (fs.contents q)) := by
      rw [UpdateOptions.report, UpdateOptions.outcome, hfault]
    rw [printReport_digest s _ hdigest houtcome]
    simp only [Text.surrogateFree_append]
    exact ⟨⟨⟨surrogateFree_digestBytes _, surrogateFree_ofString _⟩, hname hfault⟩, surrogateFree_ofString _⟩

theorem exit_runFiles_digest {s : Surroundings} {p : Plan} {paths : List Path} {fs : FileSystem} {limit : Nat}
    (hdigest : p.digest = true) (hjobs : 1 ≤ p.jobs)
    (ho : ∀ q ∈ paths, p.options.Ready limit (fs.contents q))
    (hread : ∀ q ∈ paths, ∃ place f, fs.read q = .ok (place, f))
    (hprint : ∀ q ∈ paths, p.options.fault? (fs.contents q) = none → q.toText.SurrogateFree) :
    (runFiles s p paths fs).exit = .code (exitCode ((paths.map fs.contents).map p.options.fault?)) := by
  have hwrite : p.options.write = false := by simp [Plan.options, hdigest]
  have hbatch := updateEach_of_kept ho s.replacement hread (.inl hwrite)
  have hstdout : ∀ r ∈ paths.map (p.options.report fs), (printReport s p r).stdout.SurrogateFree := by
    intro r hr
    obtain ⟨q, hq, rfl⟩ := List.mem_map.mp hr
    exact surrogateFree_printReport_digest s hdigest (hprint q hq)
  rw [runFiles_of_reports hjobs hbatch hstdout]
  simp only [exitCode, failed_printReport_digest s _ hdigest, List.any_map, Function.comp_def, fault?_report]

/-! ### Both checks -/

section Exits

variable {s : Surroundings} {args files : List Text} {stdin : Bytes} {fs : FileSystem} {f : Flags} {p : Plan}

theorem readArguments_checked (hargs : readArguments args = .ok (.format f files)) :
    readArguments (Text.ofString "--check" :: args) = .ok (.format f.checked files) := by
  rw [readArguments_check, hargs]
  rfl

theorem readArguments_digested (hargs : readArguments args = .ok (.format f files)) :
    readArguments (Text.ofString "--check" :: Text.ofString "--digest" :: args)
      = .ok (.format { f with check := true, digest := true } files) := by
  rw [readArguments_check, readArguments_digest, hargs]
  rfl

theorem plan_digested (hplan : f.plan = .ok p) : Flags.plan { f with check := true, digest := true }
    = .ok { p with check := true, digest := true } := by
  rw [plan_verdict, hplan]
  rfl

variable (hargs : readArguments args = .ok (.format f files)) (hplan : f.plan = .ok p)
  (hread : ∀ name ∈ files, ∃ place f, fs.read (Path.ofText name) = .ok (place, f))

include hread in
theorem read_of_mem_paths : ∀ q ∈ files.map Path.ofText, ∃ place f, fs.read q = .ok (place, f) := by
  intro q hq
  obtain ⟨name, hname, rfl⟩ := List.mem_map.mp hq
  exact hread name hname

include hargs hplan hread

/-- An indentation that cannot be made ends every run, as soon as there is a document that can be read. -/
theorem exit_of_wide {q : Problem} (hindent : checkIndent p.layout.indent = .error q)
    (hparse : ∃ bs ∈ documents files stdin fs, p.Reads bs) :
    (run s args stdin fs).exit = .failed (.document q) := by
  by_cases hfiles : files = []
  · subst hfiles
    obtain ⟨bs, hbs, v, h⟩ := hparse
    obtain rfl := List.mem_singleton.mp hbs
    exact (run_stdin_of_wide hargs hplan h hindent).1
  · rw [documents_of_files hfiles] at hparse
    obtain ⟨bs, hbs, v, h⟩ := hparse
    obtain ⟨path, hpath, rfl⟩ := List.mem_map.mp hbs
    have hbatch := @updateEach_of_wide p.options p.limit _ _ rfl _ hindent s.replacement
      (read_of_mem_paths hread) ⟨path, hpath, v, h⟩
    rw [run_files hargs hplan hfiles, runFiles_of_error (planned_of_plan hplan).jobs hbatch]

variable (hready : ∀ bs ∈ documents files stdin fs, p.options.Ready p.limit bs)
  (hprint : ∀ name ∈ files, p.options.fault? (fs.contents (Path.ofText name)) = none →
    (Path.ofText name).toText.SurrogateFree)

include hready hprint

theorem exit_digested :
    (run s (Text.ofString "--check" :: Text.ofString "--digest" :: args) stdin fs).exit
      = .code (exitCode ((documents files stdin fs).map p.options.fault?)) := by
  have hargs' := readArguments_digested hargs
  have hplan' := plan_digested hplan
  by_cases hfiles : files = []
  · subst hfiles
    have hstdin := hready stdin (by simp [documents])
    rcases parse_bytes_cases p.limit stdin with ⟨e, h⟩ | ⟨v, h⟩
    · rw [(run_stdin_of_malformed hargs' hplan' h).1]
      simp [documents, exitCode, hstdin.fault?_of_malformed h]
    · rw [(run_stdin_digest hargs' hplan' h (hstdin.indent v h) rfl).1]
      simp [documents, exitCode, hstdin.fault?_of_parse h]
  · rw [documents_of_files hfiles] at hready ⊢
    rw [run_files hargs' hplan' hfiles]
    refine @exit_runFiles_digest s { p with check := true, digest := true } _ fs p.limit rfl
      (planned_of_plan hplan).jobs ?_ (read_of_mem_paths hread) ?_
    · intro q hq
      exact ⟨rfl, (hready _ (List.mem_map_of_mem hq)).indent⟩
    · intro q hq
      obtain ⟨name, hname, rfl⟩ := List.mem_map.mp hq
      exact hprint name hname

theorem exit_checked (hdigest : f.digest = false) :
    (run s (Text.ofString "--check" :: args) stdin fs).exit
      = .code (if (documents files stdin fs).any (fun bs =>
          (p.options.fault? bs).isSome || p.options.settle bs != bs) then 1 else 0) := by
  by_cases hfiles : files = []
  · subst hfiles
    have hargs' := readArguments_checked hargs
    have hplan' := plan_checked hplan
    have hstdin := hready stdin (by simp [documents])
    rcases parse_bytes_cases p.limit stdin with ⟨e, h⟩ | ⟨v, h⟩
    · rw [(run_stdin_of_malformed hargs' hplan' h).1]
      simp [documents, hstdin.fault?_of_malformed h]
    · have hdigest' : Plan.digest { p with check := true } = false := (planned_of_plan hplan).digest.trans hdigest
      rw [run_stdin_check hargs' hplan' h (hstdin.indent v h) hdigest' rfl]
      simp only [documents, List.any_cons, List.any_nil, Bool.or_false, hstdin.fault?_of_parse h,
        hstdin.settle_of_parse h, Option.isSome_none, Bool.false_or]
      rfl
  · rw [documents_of_files hfiles] at hready ⊢
    have hprint' : p.quiet = false → ∀ q ∈ files.map Path.ofText, p.options.changes fs q = true →
        q.toText.SurrogateFree := by
      intro _ q hq hchanges
      obtain ⟨name, hname, rfl⟩ := List.mem_map.mp hq
      refine hprint name hname (Option.eq_none_iff_forall_ne_some.mpr fun e hfault => ?_)
      exact bne_iff_ne.mp hchanges (UpdateOptions.settle_of_fault? hfault)
    rw [run_check hargs hplan hfiles hdigest (fun q hq => hready _ (List.mem_map_of_mem hq))
      (read_of_mem_paths hread) hprint']
    simp only [List.any_map, Function.comp_def, UpdateOptions.changes]

end Exits

/-! ### When they end alike -/

theorem code_cases (failed : Bool) : ((if failed then 1 else 0) = 0 ∨ (if failed then 1 else 0) = 1)
    ∧ ((if failed then 1 else 0) = 1 ↔ failed = true) := by
  cases failed <;> decide

section Verdicts

variable {p : Plan} {docs : List Bytes} (hready : ∀ bs ∈ docs, p.options.Ready p.limit bs)

include hready

theorem exitCode_faults_eq_one_iff :
    exitCode (docs.map p.options.fault?) = 1 ↔ ∃ bs ∈ docs, p.Refuses bs := by
  have hfault : (docs.map p.options.fault?).any Option.isSome = true ↔ ∃ bs ∈ docs, p.Refuses bs := by
    rw [List.any_map, List.any_eq_true]
    exact exists_congr fun bs => and_congr_right fun hbs => (hready bs hbs).isSome_fault?_iff
  rw [← hfault, exitCode]
  exact (code_cases _).2

theorem any_fault_or_unsettled_iff :
    docs.any (fun bs => (p.options.fault? bs).isSome || p.options.settle bs != bs) = true
      ↔ ∃ bs ∈ docs, p.Refuses bs ∨ ∃ output, p.canonical bs = .ok output ∧ output ≠ bs := by
  rw [List.any_eq_true]
  refine exists_congr fun bs => and_congr_right fun hbs => ?_
  rw [Bool.or_eq_true, (hready bs hbs).isSome_fault?_iff, bne_iff_ne, UpdateOptions.settle_ne_iff,
    formatContents_of_limit rfl]
  rfl

/-- Documents that are neither refused nor changed are their own canonical forms. -/
theorem forall_canonical_iff (hrefused : ¬ ∃ bs ∈ docs, p.Refuses bs) :
    (∀ bs ∈ docs, p.canonical bs = .ok bs)
      ↔ ¬ ∃ bs ∈ docs, p.Refuses bs ∨ ∃ output, p.canonical bs = .ok output ∧ output ≠ bs := by
  constructor
  · rintro hall ⟨bs, hbs, h | ⟨output, houtput, hne⟩⟩
    · exact hrefused ⟨bs, hbs, h⟩
    · exact hne (Except.ok.inj (houtput.symm.trans (hall bs hbs)))
  · intro hnone bs hbs
    rcases parse_bytes_cases p.limit bs with h | ⟨v, h⟩
    · exact absurd ⟨bs, hbs, h⟩ hrefused
    · have houtput : p.canonical bs = .ok (canonicalOctets p.order p.layout v) :=
        @canonicalizeDocument_eq_ok (some p.order) (some p.layout) _ _ _ ((hready bs hbs).indent v h) h
      by_cases hsame : canonicalOctets p.order p.layout v = bs
      · rw [houtput, hsame]
      · exact absurd ⟨bs, hbs, .inr ⟨_, houtput, hsame⟩⟩ hnone

end Verdicts

/-- A check alone fails exactly if a document is malformed or not in canonical form, a check with digests exactly
if one is malformed. So the two end alike exactly if one is malformed or all are in canonical form. They end
alike, too, if the command line is refused, and if a document can be read and the indentation cannot be made. -/
theorem digested_check_exit_eq_iff (s : Surroundings) (args : List Text) (stdin : Bytes) (fs : FileSystem)
    (flags : Flags) (files : List Text) (hargs : readArguments args = .ok (.format flags files))
    (hdigest : flags.digest = false)
    (hread : ∀ name ∈ files, ∃ place f, fs.read (Path.ofText name) = .ok (place, f))
    (hprint : ∀ plan, flags.plan = .ok plan → ∀ name ∈ files, plan.Reads (fs.contents (Path.ofText name)) →
      (Path.ofText name).toText.SurrogateFree) :
    let checked := run s (Text.ofString "--check" :: args) stdin fs
    let digested := run s (Text.ofString "--check" :: Text.ofString "--digest" :: args) stdin fs
    let docs := documents files stdin fs
    (∀ e, flags.plan = .error e → digested.exit = checked.exit)
      ∧ ∀ plan, flags.plan = .ok plan →
        (¬ plan.layout.indent.Fits → (∃ bs ∈ docs, plan.Reads bs) → digested.exit = checked.exit)
        ∧ (((∃ bs ∈ docs, plan.Reads bs) → plan.layout.indent.Fits) →
          ∃ n m, checked.exit = .code n ∧ digested.exit = .code m ∧ (n = 0 ∨ n = 1) ∧ (m = 0 ∨ m = 1)
            ∧ (n = 1 ↔ ∃ bs ∈ docs, plan.Refuses bs ∨ ∃ output, plan.canonical bs = .ok output ∧ output ≠ bs)
            ∧ (m = 1 ↔ ∃ bs ∈ docs, plan.Refuses bs)
            ∧ (m = n ↔ (∃ bs ∈ docs, plan.Refuses bs) ∨ ∀ bs ∈ docs, plan.canonical bs = .ok bs)) := by
  intro checked digested docs
  have hargs' := readArguments_checked hargs
  have hargs'' := readArguments_digested hargs
  refine ⟨fun e he => ?_, fun plan hplan => ⟨fun hunfit hparse => ?_, fun hindent => ?_⟩⟩
  · have hverdict : ∀ check digest, Flags.plan { flags with check := check, digest := digest } = .error e := by
      intro check digest
      rw [plan_verdict, he]
      rfl
    exact (exit_of_refusal hargs'' (hverdict true true)).trans
      (exit_of_refusal hargs' (hverdict true flags.digest)).symm
  · obtain ⟨q, hindent⟩ := (Indent.fits_or plan.layout.indent).resolve_left hunfit
    exact (exit_of_wide hargs'' (plan_digested hplan) hread hindent hparse).trans
      (exit_of_wide hargs' (plan_checked hplan) hread hindent hparse).symm
  · have hready : ∀ bs ∈ docs, plan.options.Ready plan.limit bs :=
      fun bs hbs => ⟨rfl, fun v hv => hindent ⟨bs, hbs, v, hv⟩⟩
    have hprint' : ∀ name ∈ files, plan.options.fault? (fs.contents (Path.ofText name)) = none →
        (Path.ofText name).toText.SurrogateFree := by
      intro name hname hfault
      have hbs : fs.contents (Path.ofText name) ∈ docs := by
        show _ ∈ documents files stdin fs
        rw [documents_of_files (List.ne_nil_of_mem hname)]
        exact List.mem_map_of_mem (List.mem_map_of_mem hname)
      exact hprint plan hplan name hname ((hready _ hbs).fault?_eq_none_iff.mp hfault)
    obtain ⟨m, hexit', hmcases, hm⟩ : ∃ m, digested.exit = .code m ∧ (m = 0 ∨ m = 1)
        ∧ (m = 1 ↔ ∃ bs ∈ docs, plan.Refuses bs) :=
      ⟨_, exit_digested hargs hplan hread hready hprint', exitCode_cases _, exitCode_faults_eq_one_iff hready⟩
    obtain ⟨n, hexit, hncases, hn⟩ : ∃ n, checked.exit = .code n ∧ (n = 0 ∨ n = 1)
        ∧ (n = 1 ↔ ∃ bs ∈ docs, plan.Refuses bs ∨ ∃ output, plan.canonical bs = .ok output ∧ output ≠ bs) := by
      refine ⟨_, exit_checked hargs hplan hread hready hprint' hdigest, ?_⟩
      rw [← any_fault_or_unsettled_iff hready]
      exact code_cases _
    refine ⟨n, m, hexit, hexit', hncases, hmcases, hn, hm, ?_⟩
    by_cases hrefused : ∃ bs ∈ docs, plan.Refuses bs
    · obtain ⟨bs, hbs, h⟩ := hrefused
      rw [hm.mpr ⟨bs, hbs, h⟩, hn.mpr ⟨bs, hbs, .inl h⟩]
      exact iff_of_true rfl (.inl ⟨bs, hbs, h⟩)
    · -- Nothing is malformed, so the digests end well, and the check does exactly if it finds nothing.
      rw [or_iff_right hrefused, forall_canonical_iff hready hrefused, ← hn]
      rw [← hm] at hrefused
      omega

/-- A malformed file after one that is out of canonical form, and a settled document on the standard input. -/
theorem digested_check_exit_eq_iff_mixed :
    let a : Text := Text.ofChars ['a']
    let b : Text := Text.ofChars ['b']
    let check : Text := Text.ofString "--check"
    let digest : Text := Text.ofString "--digest"
    let fs : FileSystem := { files := [([a], ⟨0o644, [0x30]⟩), ([b], ⟨0o600, [0xFF]⟩)] }
    (run {} [check, a, b] [] fs).exit = .code 1
      ∧ (run {} [check, digest, a, b] [] fs).exit = .code 1
      ∧ (∀ bs ∈ documents [] [0x30, 0x0A] fs, ({} : Plan).canonical bs = .ok bs)
      ∧ ∃ n, (run {} [check] [0x30, 0x0A] fs).exit = .code n
        ∧ (run {} [check, digest] [0x30, 0x0A] fs).exit = .code n := by
  intro a b check digest fs
  have hread : ∀ name ∈ [a, b], ∃ place f, fs.read (Path.ofText name) = .ok (place, f) := by
    simp only [List.mem_cons, List.not_mem_nil, or_false, forall_eq_or_imp, forall_eq]
    exact ⟨⟨[a], _, rfl⟩, ⟨[b], _, rfl⟩⟩
  have hnames : ∀ name ∈ [a, b], (Path.ofText name).toText.SurrogateFree := by decide
  have hrefused : ∃ bs ∈ documents [a, b] [] fs, ({} : Plan).Refuses bs :=
    ⟨[0xFF], .tail _ (.head _), _, rfl⟩
  have hsettled : ∀ bs ∈ documents [] [0x30, 0x0A] fs, ({} : Plan).canonical bs = .ok bs := by
    intro bs hbs
    obtain rfl := List.mem_singleton.mp hbs
    exact @canonicalizeDocument_canonicalOctets (some {}) (some {}) _ _ _ (.inl rfl) (by decide) (parse_zero 512)
  obtain ⟨n, m, hn, hm, -, -, -, hone, hsame⟩ := ((digested_check_exit_eq_iff {} [a, b] [] fs {} [a, b] rfl rfl
    hread fun _ _ name hname _ => hnames name hname).2 {} rfl).2 fun _ => by decide
  obtain ⟨n', m', hn', hm', -, -, -, -, hsame'⟩ := ((digested_check_exit_eq_iff {} [] [0x30, 0x0A] fs {} [] rfl
    rfl (by simp) (by simp)).2 {} rfl).2 fun _ => by decide
  rw [hone.mpr hrefused] at hm hsame
  rw [← hsame.mpr (.inl hrefused)] at hn
  rw [hsame'.mpr (.inr hsettled)] at hm'
  exact ⟨hn, hm, hsettled, n', hn', hm'⟩

/-- A document out of canonical form: the check alone fails on it, and with the digest it ends well. -/
theorem not_digested_check_of_unsettled :
    let a : Text := Text.ofChars ['a']
    let check : Text := Text.ofString "--check"
    let digest : Text := Text.ofString "--digest"
    let fs : FileSystem := { files := [([a], ⟨0o644, [0x30]⟩)] }
    ({} : Plan).canonical [0x30] = .ok [0x30, 0x0A]
      ∧ (run {} [check] [0x30] fs).exit = .code 1
      ∧ (run {} [check, digest] [0x30] fs).exit = .code 0
      ∧ (run {} [check, a] [] fs).exit = .code 1
      ∧ (run {} [check, digest, a] [] fs).exit = .code 0 := by
  intro a check digest fs
  have hread : fs.read (Path.ofText a) = .ok ([a], ⟨0o644, [0x30]⟩) := rfl
  have hname : (Path.ofText a).toText.SurrogateFree := by decide
  have hindent : ({} : Plan).layout.indent.Fits := by decide
  have hcheck : Flags.plan { check := true } = .ok { check := true } := rfl
  have hdigest : Flags.plan { check := true, digest := true } = .ok { check := true, digest := true } := rfl
  refine ⟨?_, ?_, ?_, ?_, ?_⟩
  · exact @canonicalizeDocument_eq_ok (some {}) (some {}) _ _ _ hindent (parse_zero 512)
  · exact run_stdin_check rfl hcheck (parse_zero 512) hindent rfl rfl
  · exact (run_stdin_digest rfl hdigest (parse_zero 512) hindent rfl).1
  · exact run_file_check rfl hcheck hread (parse_zero 512) hindent rfl rfl fun _ _ => hname
  · exact (run_file_digest rfl hdigest hread (parse_zero 512) hindent rfl hname).1

end CanonJson.Command
