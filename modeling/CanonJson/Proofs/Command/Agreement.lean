import CanonJson.Proofs.Command.Transcript
import CanonJson.Proofs.SecondPass
/-!
# Standard input, files and digests agree

A document on the standard input and the same document in a file take different ways: the one is read, sorted
and printed step by step, and for a digest sorted once more; the other goes through a report. Sorting what is
sorted changes nothing, so all of them come to the octets of the canonical form.
-/

namespace CanonJson.Command

open FileSystem

/-! ### Standard input -/

section Stdin

variable {p : Plan} {data : Bytes} {v : Value} (hv : v.WellFormed)

include hv

theorem formatStdin_digest (hindent : p.layout.indent.Fits) (hdigest : p.digest = true) :
    formatStdin p data v
      = .ok (0, octets (digestBytes (canonicalOctets p.order p.layout v) ++ "\n")) := by
  rw [formatStdin, canonicalize_eq_ok p.order hv, ok_bind, if_pos hdigest, digestValue, Option.getD_some,
    Option.getD_some, canonicalBytes_eq_ok p.order hindent (wellFormed_arranged hv), canonicalOctets_arranged hv]
  rfl

theorem formatStdin_check (hindent : p.layout.indent.Fits) (hdigest : p.digest = false) (hcheck : p.check = true) :
    formatStdin p data v
      = .ok (if canonicalOctets p.order p.layout v != data
          then (1, if p.quiet then [] else octets (reformatLine stdinName)) else (0, [])) := by
  rw [formatStdin, canonicalize_eq_ok p.order hv, ok_bind, hdigest, hcheck,
    renderBytes_eq_ok hindent (wellFormed_arranged hv)]
  change (if (canonicalOctets p.order p.layout v != data) = true then _ else _) = _
  split
  · rfl
  · rfl

theorem formatStdin_plain (hindent : p.layout.indent.Fits) (hdigest : p.digest = false)
    (hcheck : p.check = false) : formatStdin p data v = .ok (0, canonicalOctets p.order p.layout v) := by
  rw [formatStdin, canonicalize_eq_ok p.order hv, ok_bind, hdigest, hcheck,
    renderBytes_eq_ok hindent (wellFormed_arranged hv)]
  rfl

theorem formatStdin_of_wide {q : Problem} (hindent : checkIndent p.layout.indent = .error q) :
    formatStdin p data v = .error q := by
  rw [formatStdin, canonicalize_eq_ok p.order hv, ok_bind]
  cases hdigest : p.digest with
  | true =>
    rw [if_pos rfl, digestValue, Option.getD_some, Option.getD_some,
      canonicalBytes_eq_error p.order hindent (wellFormed_arranged hv)]
    rfl
  | false =>
    rw [if_neg Bool.false_ne_true, renderBytes_eq_error hindent]
    rfl

end Stdin

/-! ### One document, two ways -/

theorem surrogateFree_digestBytes (bs : Bytes) : (digestBytes bs).SurrogateFree := by
  rw [digestBytes, Text.surrogateFree_append]
  refine ⟨surrogateFree_ofString _, Text.surrogateFree_flatMap ?_⟩
  intro w _
  exact Text.surrogateFree_hex _ _ _

section Stdin

variable {s : Surroundings} {args : List Text} {f : Flags} {p : Plan} {data : Bytes} {fs : FileSystem}
  (hargs : readArguments args = .ok (.format f [])) (hplan : f.plan = .ok p)

include hargs hplan

theorem run_stdin_of_malformed {e : ParseError} (h : parse p.limit (.bytes data) = .error (.malformed e)) :
    (run s args data fs).exit = .code 1
      ∧ (run s args data fs).stderr
        = Text.spellSurrogates (logLine s p (faultRecord "source" stdinName e) ++ faultLine stdinName e) := by
  rw [run_stdin hargs hplan, runStdin, h]
  exact ⟨rfl, rfl⟩

variable {v : Value} (h : parse p.limit (.bytes data) = .ok v)

include h

theorem run_stdin_of_wide {q : Problem} (hindent : checkIndent p.layout.indent = .error q) :
    (run s args data fs).exit = .failed (.document q) ∧ (run s args data fs).stdout = [] := by
  rw [run_stdin hargs hplan, runStdin, h]
  simp only [formatStdin_of_wide (wellFormed_of_parse h) hindent, and_self]

theorem run_stdin_digest (hindent : p.layout.indent.Fits) (hdigest : p.digest = true) :
    (run s args data fs).exit = .code 0
      ∧ (run s args data fs).stdout = octets (digestBytes (canonicalOctets p.order p.layout v) ++ "\n") := by
  rw [run_stdin hargs hplan, runStdin, h]
  simp only [formatStdin_digest (wellFormed_of_parse h) hindent hdigest, and_self]

theorem run_stdin_check (hindent : p.layout.indent.Fits) (hdigest : p.digest = false) (hcheck : p.check = true) :
    (run s args data fs).exit = .code (if canonicalOctets p.order p.layout v != data then 1 else 0) := by
  rw [run_stdin hargs hplan, runStdin, h]
  simp only [formatStdin_check (wellFormed_of_parse h) hindent hdigest hcheck]
  split
  · rfl
  · rfl

theorem run_stdin_plain (hindent : p.layout.indent.Fits) (hdigest : p.digest = false) (hcheck : p.check = false) :
    (run s args data fs).exit = .code 0
      ∧ (run s args data fs).stdout = canonicalOctets p.order p.layout v := by
  rw [run_stdin hargs hplan, runStdin, h]
  simp only [formatStdin_plain (wellFormed_of_parse h) hindent hdigest hcheck, and_self]

end Stdin

section File

variable {s : Surroundings} {args : List Text} {f : Flags} {p : Plan} {stdin data : Bytes} {fs : FileSystem}
  {name : Text} {place : List Text} {mode : Nat} (hargs : readArguments args = .ok (.format f [name]))
  (hplan : f.plan = .ok p) (hread : fs.read (Path.ofText name) = .ok (place, ⟨mode, data⟩))

include hargs hplan hread

theorem run_file_of_malformed {e : ParseError} (h : parse p.limit (.bytes data) = .error (.malformed e)) :
    (run s args stdin fs).exit = .code 1
      ∧ (run s args stdin fs).stderr
        = Text.spellSurrogates (logLine s p (faultRecord "path" (Path.ofText name).toText e)
          ++ faultLine (Path.ofText name).toText e) := by
  have hformat : formatContents p.options data = .error (.malformed e) := by
    rw [@formatContents_of_limit p.options p.limit data rfl, canonicalizeDocument_of_parse_error _ _ h]
  have hupdate := @updateFile_of_unwritten _ s.replacement _ _ _ _ _ hread (outcomeOf_of_malformed hformat) rfl
  rw [run_files hargs hplan (by simp), List.map_singleton,
    runFiles_of_reports (planned_of_plan hplan).jobs (updateEach_singleton hupdate)
      (by simp [printReport, Text.surrogateFree_nil])]
  simp [printReport]

variable {v : Value} (h : parse p.limit (.bytes data) = .ok v) (hindent : p.layout.indent.Fits)

include h hindent

theorem run_file_digest (hdigest : p.digest = true) (hprint : (Path.ofText name).toText.SurrogateFree) :
    (run s args stdin fs).exit = .code 0
      ∧ octets (digestBytes (canonicalOctets p.order p.layout v) ++ "  " ++ (Path.ofText name).toText ++ "\n")
        <+: (run s args stdin fs).stdout := by
  have ho := ready_of_fits hindent data
  have hwrite : p.options.write = false := by simp [Plan.options, hdigest]
  have hupdate := @updateFile_of_kept _ _ s.replacement _ _ _ _ ho hread (.inl hwrite)
  have hreport : (p.options.report fs (Path.ofText name)).outcome
      = p.options.formatted data (canonicalOctets p.order p.layout v) := outcome_report_of_parse ho hread h
  have hprinted := printReport_digest s _ hdigest hreport
  have hline : (printReport s p (p.options.report fs (Path.ofText name))).stdout.SurrogateFree := by
    rw [hprinted]
    simp only [Text.surrogateFree_append]
    exact ⟨⟨⟨surrogateFree_digestBytes _, surrogateFree_ofString _⟩, hprint⟩, surrogateFree_ofString _⟩
  rw [run_files hargs hplan (by simp), List.map_singleton,
    runFiles_of_reports (planned_of_plan hplan).jobs (updateEach_singleton hupdate) (by simpa using hline)]
  simp only [List.any_cons, List.any_nil, hprinted, List.flatMap_cons, List.flatMap_nil, List.append_nil,
    octets, List.flatMap_append]
  exact ⟨rfl, List.prefix_append _ _⟩

theorem run_file_check (hdigest : p.digest = false) (hcheck : p.check = true)
    (hprint : p.quiet = false → canonicalOctets p.order p.layout v ≠ data →
      (Path.ofText name).toText.SurrogateFree) :
    (run s args stdin fs).exit = .code (if canonicalOctets p.order p.layout v != data then 1 else 0) := by
  have ho := ready_of_fits hindent data
  have hreadable : ∀ q ∈ [Path.ofText name], ∃ place f, fs.read q = .ok (place, f) := by
    simp [hread]
  have hchanges : p.options.changes fs (Path.ofText name) = (canonicalOctets p.order p.layout v != data) := by
    rw [UpdateOptions.changes, contents_of_read hread, ho.settle_of_parse h]
    rfl
  have hnamed : p.quiet = false → ∀ q ∈ [Path.ofText name], p.options.changes fs q = true →
      q.toText.SurrogateFree := by
    intro hquiet q hq hchanged
    obtain rfl := List.mem_singleton.mp hq
    rw [hchanges] at hchanged
    exact hprint hquiet (bne_iff_ne.mp hchanged)
  rw [run_files hargs hplan (by simp), List.map_singleton,
    runFiles_check hdigest (planned_of_plan hplan).jobs
      (fun q _ => ready_of_fits hindent (fs.contents q)) hcheck hreadable hnamed]
  simp only [List.any_cons, List.any_nil, Bool.or_false, contents_of_read hread, ho.fault?_of_parse h, hchanges,
    Option.isSome_none, Bool.false_or]

theorem run_file_plain (hdigest : p.digest = false) (hcheck : p.check = false)
    (hwork : Workable p.options s.replacement [Path.ofText name] fs) :
    (run s args stdin fs).exit = .code 0
      ∧ (run s args stdin fs).files.fileAt? place
        = some ⟨mode, canonicalOctets p.order p.layout v⟩ := by
  have hplanned := planned_of_plan hplan
  have ho := ready_of_fits hindent data
  obtain ⟨hplace, hfile⟩ := place_of_read hread
  obtain ⟨hexit, hsettles⟩ := @run_plain s args [name] stdin fs f p hargs hplan (by simp)
    (hplanned.digest.symm.trans hdigest) (fun q _ => ready_of_fits hindent (fs.contents q))
    (hplanned.check.symm.trans hcheck) hwork (.inl (by simp))
  constructor
  · rw [hexit, List.map_singleton, List.map_singleton, contents_of_read hread, ho.fault?_of_parse h]
    rfl
  · rw [hsettles.fileAt?, if_pos (by simp [hplace]), hfile, Option.map_some, UpdateOptions.settleFile,
      ho.settle_of_parse h]
    rfl

end File

/-! ### Both -/

section Both

variable {s : Surroundings} {args fileArgs : List Text} {f : Flags} {p : Plan} {data stdin : Bytes}
  {fs : FileSystem} {name : Text} {place : List Text} {mode : Nat} {v : Value}
  (hargs : readArguments args = .ok (.format f [])) (hfile : readArguments fileArgs = .ok (.format f [name]))
  (hplan : f.plan = .ok p) (hread : fs.read (Path.ofText name) = .ok (place, ⟨mode, data⟩))
  (h : parse p.limit (.bytes data) = .ok v)

include hargs hfile hplan hread h

theorem exit_agree_of_fits (hindent : p.layout.indent.Fits)
    (hwork : p.options.write = true → Workable p.options s.replacement [Path.ofText name] fs)
    (hprint : f.digest = true ∨ f.check = true ∧ f.quiet = false ∧ canonicalOctets p.order p.layout v ≠ data →
      (Path.ofText name).toText.SurrogateFree) :
    (run s fileArgs stdin fs).exit = (run s args data fs).exit := by
  have hplanned := planned_of_plan hplan
  rw [← hplanned.digest, ← hplanned.check, ← hplanned.quiet] at hprint
  cases hdigest : p.digest with
  | true =>
    rw [(run_stdin_digest hargs hplan h hindent hdigest).1,
      (run_file_digest hfile hplan hread h hindent hdigest (hprint (.inl hdigest))).1]
  | false =>
    cases hcheck : p.check with
    | true =>
      rw [run_stdin_check hargs hplan h hindent hdigest hcheck,
        run_file_check hfile hplan hread h hindent hdigest hcheck
          fun hquiet hchanged => hprint (.inr ⟨hcheck, hquiet, hchanged⟩)]
    | false =>
      have hwrite : p.options.write = true := by simp [Plan.options, hdigest, hcheck]
      rw [(run_stdin_plain hargs hplan h hindent hdigest hcheck).1,
        (run_file_plain hfile hplan hread h hindent hdigest hcheck (hwork hwrite)).1]

theorem exit_agree_of_wide {q : Problem} (hindent : checkIndent p.layout.indent = .error q) :
    (run s fileArgs stdin fs).exit = (run s args data fs).exit := by
  rw [(run_stdin_of_wide hargs hplan h hindent).1, (run_file_of_wide hfile hplan hread h hindent).1]

end Both

/-- Without check and digest, the same choices have the canonical form printed. -/
theorem run_stdin_without_verdict {s : Surroundings} {args : List Text} {f : Flags} {p : Plan} {data : Bytes}
    {fs : FileSystem} {v : Value}
    (hargs : readArguments args = .ok (.format { f with check := false, digest := false } []))
    (hplan : f.plan = .ok p) (h : parse p.limit (.bytes data) = .ok v) (hindent : p.layout.indent.Fits) :
    (run s args data fs).stdout = canonicalOctets p.order p.layout v := by
  have hplan' : Flags.plan { f with check := false, digest := false }
      = .ok { p with check := false, digest := false } := by
    rw [plan_verdict, hplan]
    rfl
  exact (@run_stdin_plain s args _ _ data fs hargs hplan' v h hindent rfl rfl).2

/-! ### The preset of RFC 8785 -/

/-- Of all choices on order, layout and depth, only the preset is made. -/
def Flags.OnlyPreset (f : Flags) : Prop :=
  f = { rfc8785 := true, check := f.check, digest := f.digest, jobs := f.jobs, quiet := f.quiet
        verbose := f.verbose, logJson := f.logJson }

theorem Flags.Planned.of_onlyPreset {f : Flags} {p : Plan} (h : f.Planned p) (hf : f.OnlyPreset) :
    p.order = .rfc8785 ∧ p.layout = .rfc8785 ∧ p.limit = defaultDepth := by
  have horder := h.order
  have hlayout := h.layout
  obtain ⟨n, hn, hlimit⟩ := h.limit
  rw [hf] at horder hlayout hn
  refine ⟨(Except.ok.inj horder).symm, (Except.ok.inj hlayout).symm, ?_⟩
  rw [hlimit, ← Except.ok.inj hn]
  rfl

theorem digestFile_of_parse {fs : FileSystem} {path : Path} {place : List Text} {file : File}
    (hread : fs.read path = .ok (place, file)) {v : Value}
    (h : parse defaultDepth (.bytes file.bytes) = .ok v) :
    digestFile path fs = .ok (Sha256.hexDigest (canonicalOctets .rfc8785 .rfc8785 v)) := by
  rw [digestFile, hread]
  simp only [digestDocument_eq_ok h, digestBytes, List.drop_left]

/-- Two command lines that make the same choices, one for the standard input and one for a file with the same
document, end in the same way. A fault is reported at the same line and column in the same words. What the one
prints is what the other leaves in the file, and a digest is that of what would have been printed; with the
preset alone it is also the digest of the file. -/
theorem stdin_file_digest_agree (s : Surroundings) (flags : Flags) (args fileArgs : List Text) (name : Text)
    (data stdin : Bytes) (fs : FileSystem) (place : List Text) (mode : Nat)
    (hargs : readArguments args = .ok (.format flags []))
    (hfile : readArguments fileArgs = .ok (.format flags [name]))
    (hread : fs.read (Path.ofText name) = .ok (place, ⟨mode, data⟩))
    (hwork : ∀ plan, flags.plan = .ok plan → plan.options.write = true →
      Workable plan.options s.replacement [Path.ofText name] fs)
    (hprint : ∀ plan output, flags.plan = .ok plan →
      canonicalizeDocument (some plan.order) (some plan.layout) plan.limit (.bytes data) = .ok output →
      flags.digest = true ∨ flags.check = true ∧ flags.quiet = false ∧ output ≠ data →
      (Path.ofText name).toText.SurrogateFree) :
    let fromStdin := run s args data fs
    let fromFile := run s fileArgs stdin fs
    let path := (Path.ofText name).toText
    fromFile.exit = fromStdin.exit
      ∧ ∀ plan, flags.plan = .ok plan →
        (∀ e, parse plan.limit (.bytes data) = .error (.malformed e) → fromStdin.exit = .code 1
          ∧ fromStdin.stderr
            = Text.spellSurrogates (logLine s plan (faultRecord "source" stdinName e) ++ faultLine stdinName e)
          ∧ fromFile.stderr
            = Text.spellSurrogates (logLine s plan (faultRecord "path" path e) ++ faultLine path e))
        ∧ ∀ v, parse plan.limit (.bytes data) = .ok v → plan.layout.indent.Fits →
          ∃ output,
            canonicalizeDocument (some plan.order) (some plan.layout) plan.limit (.bytes data) = .ok output
            ∧ (flags.digest = false → flags.check = false →
              fromStdin.stdout = output ∧ fromFile.files.fileAt? place = some ⟨mode, output⟩)
            ∧ (flags.digest = true →
              fromStdin.stdout = octets (digestBytes output ++ "\n")
              ∧ octets (digestBytes output ++ "  " ++ path ++ "\n") <+: fromFile.stdout
              ∧ (∀ plainArgs,
                readArguments plainArgs = .ok (.format { flags with check := false, digest := false } []) →
                (run s plainArgs data fs).stdout = output)
              ∧ (flags.OnlyPreset → ∃ hex, digestFile (Path.ofText name) fs = .ok hex
                ∧ digestBytes output = digestPrefix ++ hex)) := by
  intro fromStdin fromFile path
  cases hplan : flags.plan with
  | error e =>
    refine ⟨exit_of_no_plan hfile hargs hplan, ?_⟩
    intro plan h
    cases h
  | ok plan =>
  have hplanned := planned_of_plan hplan
  -- Both runs read the same octets under the same limit, so a document is malformed for both or for neither.
  rcases parse_bytes_cases plan.limit data with ⟨e, hparse⟩ | ⟨v, hparse⟩
  · obtain ⟨hexit, hstderr⟩ := @run_stdin_of_malformed s args flags plan data fs hargs hplan e hparse
    obtain ⟨hexit', hstderr'⟩ :=
      @run_file_of_malformed s fileArgs flags plan stdin data fs name place mode hfile hplan hread e hparse
    refine ⟨hexit'.trans hexit.symm, ?_⟩
    intro plan' hsame
    obtain rfl := Except.ok.inj hsame
    constructor
    · intro e' he'
      obtain rfl := Problem.malformed.inj (Except.error.inj (hparse.symm.trans he'))
      exact ⟨hexit, hstderr, hstderr'⟩
    · intro v hv
      cases hparse.symm.trans hv
  · have hexit : fromFile.exit = fromStdin.exit := by
      rcases Indent.fits_or plan.layout.indent with hindent | ⟨q, hindent⟩
      · exact exit_agree_of_fits hargs hfile hplan hread hparse hindent (hwork plan hplan)
          (hprint plan _ hplan (canonicalizeDocument_eq_ok hindent hparse))
      · exact exit_agree_of_wide hargs hfile hplan hread hparse hindent
    refine ⟨hexit, ?_⟩
    intro plan' hsame
    obtain rfl := Except.ok.inj hsame
    constructor
    · intro e he
      cases hparse.symm.trans he
    · intro v' hv' hindent
      obtain rfl := Except.ok.inj (hparse.symm.trans hv')
      have houtput := @canonicalizeDocument_eq_ok (some plan.order) (some plan.layout) _ _ _ hindent hparse
      refine ⟨_, houtput, ?_, ?_⟩
      · intro hdigest hcheck
        rw [← hplanned.digest] at hdigest
        rw [← hplanned.check] at hcheck
        have hwrite : plan.options.write = true := by simp [Plan.options, hdigest, hcheck]
        exact ⟨(run_stdin_plain hargs hplan hparse hindent hdigest hcheck).2,
          (run_file_plain hfile hplan hread hparse hindent hdigest hcheck (hwork plan hplan hwrite)).2⟩
      · intro hdigest
        have hname := hprint plan _ hplan houtput (.inl hdigest)
        rw [← hplanned.digest] at hdigest
        refine ⟨(run_stdin_digest hargs hplan hparse hindent hdigest).2,
          (run_file_digest hfile hplan hread hparse hindent hdigest hname).2, ?_, ?_⟩
        · intro plainArgs hplain
          exact run_stdin_without_verdict hplain hplan hparse hindent
        · -- The digest of a file takes the preset and the default depth, whatever is chosen.
          intro hpreset
          obtain ⟨horder, hlayout, hlimit⟩ := hplanned.of_onlyPreset hpreset
          rw [hlimit] at hparse
          rw [horder, hlayout]
          exact ⟨_, digestFile_of_parse hread hparse, rfl⟩

/-- A document that has to be rewritten, and the digest of the same document. -/
theorem stdin_file_digest_agree_zero :
    let a : Text := Text.ofChars ['a']
    let preset : Flags := { rfc8785 := true, digest := true }
    let presetArgs : List Text := [Text.ofString "--rfc8785", Text.ofString "--digest"]
    let s : Surroundings := { replacement := { names := [a] } }
    let fs : FileSystem := { files := [([a], ⟨0o644, [0x30]⟩)] }
    Workable ({} : Plan).options s.replacement [Path.ofText a] fs
      ∧ (run s [] [0x30] fs).exit = (run s [a] [] fs).exit
      ∧ (∃ output, (run s [] [0x30] fs).stdout = output
        ∧ (run s [a] [] fs).files.fileAt? [a] = some ⟨0o644, output⟩)
      ∧ preset.OnlyPreset
      ∧ ∃ output hex, (run s presetArgs [0x30] fs).stdout = octets (digestBytes output ++ "\n")
        ∧ digestFile (Path.ofText a) fs = .ok hex ∧ digestBytes output = digestPrefix ++ hex := by
  intro a preset presetArgs s fs
  have hread : fs.read (Path.ofText a) = .ok ([a], ⟨0o644, [0x30]⟩) := rfl
  have hwork : Workable ({} : Plan).options s.replacement [Path.ofText a] fs := by
    apply Workable.of_canReplace
    intro q hq
    rw [List.mem_singleton.mp hq]
    exact ⟨[a], _, hread, rfl, _, rfl⟩
  have hwork' : ∀ plan, Flags.plan {} = .ok plan → plan.options.write = true →
      Workable plan.options s.replacement [Path.ofText a] fs := by
    intro plan hplan _
    rwa [← Except.ok.inj hplan]
  have hunwritten : ∀ plan, preset.plan = .ok plan → plan.options.write = true →
      Workable plan.options s.replacement [Path.ofText a] fs := by
    intro plan hplan hwrite
    rw [← Except.ok.inj hplan] at hwrite
    cases hwrite
  have hname : (Path.ofText a).toText.SurrogateFree := by decide
  obtain ⟨hexit, hplain⟩ := stdin_file_digest_agree s {} [] [a] a [0x30] [] fs [a] 0o644 rfl rfl hread hwork'
    (fun _ _ _ _ _ => hname)
  have hpreset := stdin_file_digest_agree s preset presetArgs (presetArgs ++ [a]) a [0x30] [] fs [a] 0o644 rfl
    rfl hread hunwritten (fun _ _ _ _ _ => hname)
  obtain ⟨output, -, hwritten, -⟩ := (hplain {} rfl).2 _ (parse_zero 512) (by decide)
  obtain ⟨output', -, -, hdigest⟩ := (hpreset.2 _ rfl).2 _ (parse_zero 512) (by decide)
  obtain ⟨hstdout, -, -, hhex⟩ := hdigest rfl
  obtain ⟨hex, hfile, hsame⟩ := hhex rfl
  exact ⟨hwork, hexit.symm, ⟨output, hwritten rfl rfl⟩, rfl, output', hex, hstdout, hfile, hsame⟩

/-- A file that cannot be replaced ends a run that would have printed its document, and a name that cannot be
encoded ends one that would have printed the digest. With an indentation that is longer than any string the one
prints nothing, and the other leaves the file as it is. -/
theorem not_agree_of_refused :
    let a : Text := Text.ofChars ['a']
    let odd : Text := [.ofNat 0xDC80]
    let wide : List Text := [Text.ofString "--indent", Text.ofString "9223372036854775808"]
    let s : Surroundings := { replacement := { names := [a] } }
    let refusing : Surroundings := { replacement := { names := [a], refused := some .rename } }
    let fs : FileSystem := { files := [([a], ⟨0o644, [0x30]⟩), ([odd], ⟨0o644, [0x30]⟩)] }
    (run refusing [] [0x30] fs).exit = .code 0
      ∧ (∀ n, (run refusing [a] [] fs).exit ≠ .code n)
      ∧ (run s [Text.ofString "--digest"] [0x30] fs).exit = .code 0
      ∧ (∀ n, (run s [Text.ofString "--digest", odd] [] fs).exit ≠ .code n)
      ∧ (run s wide [0x30] fs).stdout = []
      ∧ (run s (wide ++ [a]) [] fs).files.fileAt? [a] = some ⟨0o644, [0x30]⟩ := by
  intro a odd wide s refusing fs
  have hread : fs.read (Path.ofText a) = .ok ([a], ⟨0o644, [0x30]⟩) := rfl
  have hodd : fs.read (Path.ofText odd) = .ok ([odd], ⟨0o644, [0x30]⟩) := rfl
  have hindent : checkIndent (.spaces 9223372036854775808) = .error .countTooLarge := checkIndent_of_index (by decide)
  have hplan : Flags.plan { indent := .given (.spaces 9223372036854775808) }
      = .ok { layout := { indent := .spaces 9223372036854775808 } } := rfl
  refine ⟨?_, ?_, ?_, ?_, ?_, ?_⟩
  · exact (@run_stdin_plain refusing [] {} {} [0x30] fs rfl rfl _ (parse_zero 512) (by decide) rfl rfl).1
  · intro n
    have hrefused : ¬ CanReplace refusing.replacement (Path.ofText a) [a] fs := by
      intro h
      cases h.1
    obtain ⟨e, -, hexit, -⟩ := @run_file_of_refused refusing [a] {} {} [] fs a _ _ rfl rfl hread rfl rfl
      (by decide) (UpdateOptions.settle_zero_ne 512 true) hrefused
    rw [hexit]
    simp
  · exact (@run_stdin_digest s [Text.ofString "--digest"] { digest := true } { digest := true } [0x30] fs rfl rfl
      _ (parse_zero 512) (by decide) rfl).1
  · intro n
    have ho : (Plan.options { digest := true }).Ready 512 [0x30] := ready_of_fits (by decide) _
    have hupdate := @updateFile_of_kept _ _ s.replacement _ _ _ _ ho hodd (.inl rfl)
    have hreport := outcome_report_of_parse ho hodd (parse_zero 512)
    have hline : ∃ c ∈ (printReport s { digest := true }
        ((Plan.options { digest := true }).report fs (Path.ofText odd))).stdout, c.isSurrogate = true := by
      rw [printReport_digest s _ rfl hreport]
      refine ⟨.ofNat 0xDC80, ?_, by decide⟩
      exact List.mem_append_left _ (List.mem_append_right _ (by decide))
    obtain ⟨e, he⟩ := @run_file_of_unencodable s [Text.ofString "--digest", odd] { digest := true }
      { digest := true } [] fs odd fs _ rfl rfl hupdate hline
    rw [he]
    simp
  · have hargs : readArguments wide
        = .ok (.format { indent := .given (.spaces 9223372036854775808) } []) := rfl
    exact (run_stdin_of_wide hargs hplan (parse_zero 512) hindent).2
  · have hargs : readArguments (wide ++ [a])
        = .ok (.format { indent := .given (.spaces 9223372036854775808) } [a]) := rfl
    rw [(run_file_of_wide hargs hplan hread (parse_zero 512) hindent).2]
    rfl

end CanonJson.Command
