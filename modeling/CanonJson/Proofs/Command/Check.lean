import CanonJson.Proofs.Command.Transcript
/-!
# A check predicts the rewrite

A check and the run that it stands for read the same files under the same options. The check names the files
whose canonical form is not what they hold, and these are the files that the run rewrites.
-/

namespace CanonJson.Command

open FileSystem

/-- What a check notes on a document: that it is malformed, in a record and in a line, or in a record that there is
nothing to change. -/
def checkNote (s : Surroundings) (p : Plan) (source : Text) (bs : Bytes) (changes : Bool) : Text :=
  match parse p.limit (.bytes bs) with
  | .error (.malformed e) => logLine s p (faultRecord "path" source e) ++ faultLine source e
  | _ => if changes then [] else logLine s p ⟨.debug, "file_unchanged", [("path", .text source)]⟩

theorem stderr_printReport_check (s : Surroundings) {p : Plan} (hcheck : p.check = true) (hdigest : p.digest = false)
    {fs : FileSystem} {q : Path} (ho : p.options.Ready p.limit (fs.contents q)) :
    (printReport s p (p.options.report fs q)).stderr
      = checkNote s p q.toText (fs.contents q) (p.options.changes fs q) := by
  rw [printReport, checkNote, UpdateOptions.report]
  rcases parse_bytes_cases p.limit (fs.contents q) with ⟨e, h⟩ | ⟨v, h⟩
  · rw [h, UpdateOptions.outcome, ho.fault?_of_malformed h]
  · rw [h, ho.outcome_of_parse h, UpdateOptions.changes, ho.settle_of_parse h, UpdateOptions.formatted]
    have hwrite : p.options.write = false := by simp [Plan.options, hcheck]
    simp only [hdigest, hcheck, hwrite, Bool.true_and, Bool.false_and, Bool.false_eq_true, if_false]
    split <;> rfl

/-- The files that a batch changes are those that were not settled. -/
theorem filter_fileAt?_ne {o : UpdateOptions} {files : List Text} {fs fs' : FileSystem}
    (hread : ∀ q ∈ files.map Path.ofText, ∃ place f, fs.read q = .ok (place, f))
    (hsettles : Settles o ((files.map Path.ofText).map fs.place) fs fs') :
    (files.filter fun name =>
        fs'.fileAt? (fs.place (Path.ofText name)) ≠ fs.fileAt? (fs.place (Path.ofText name)))
      = files.filter fun name => o.changes fs (Path.ofText name) := by
  apply List.filter_congr
  intro name hname
  have hpath : Path.ofText name ∈ files.map Path.ofText := List.mem_map_of_mem hname
  obtain ⟨place, f, hfile⟩ := hread _ hpath
  have hplace := (place_of_read hfile).1
  rw [Bool.eq_iff_iff, decide_eq_true_iff, ← hplace]
  apply hsettles.fileAt?_ne_iff hfile
  rw [hplace]
  exact List.mem_map_of_mem hpath

theorem any_fault_or_changes_iff {o : UpdateOptions} {limit : Nat} {fs : FileSystem} {files : List Text}
    (ho : ∀ q ∈ files.map Path.ofText, o.Ready limit (fs.contents q)) :
    ((files.map Path.ofText).any fun q => (o.fault? (fs.contents q)).isSome || o.changes fs q) = true
      ↔ (files.filter fun name => o.changes fs (Path.ofText name)) ≠ []
        ∨ ∃ name ∈ files, ∃ e, parse limit (.bytes (fs.contents (Path.ofText name))) = .error (.malformed e) := by
  rw [List.any_eq_true]
  constructor
  · intro h
    obtain ⟨q, hq, h⟩ := h
    obtain ⟨name, hname, rfl⟩ := List.mem_map.mp hq
    rw [Bool.or_eq_true] at h
    rcases h with hfault | hchanges
    · exact .inr ⟨name, hname, (ho _ hq).isSome_fault?_iff.mp hfault⟩
    · exact .inl (List.ne_nil_of_mem (List.mem_filter.mpr ⟨hname, hchanges⟩))
  · intro h
    rcases h with hsome | ⟨name, hname, hfault⟩
    · obtain ⟨name, hname⟩ := List.exists_mem_of_ne_nil _ hsome
      obtain ⟨hname, hchanges⟩ := List.mem_filter.mp hname
      exact ⟨_, List.mem_map_of_mem hname, by rw [hchanges, Bool.or_true]⟩
    · have hq : Path.ofText name ∈ files.map Path.ofText := List.mem_map_of_mem hname
      exact ⟨_, hq, by rw [(ho _ hq).isSome_fault?_iff.mpr hfault, Bool.true_or]⟩

/-- A check leaves all files as they are, and says what the run without it does: it names in order the files
that would be rewritten, counts them, and fails if there are any or if a document is malformed. The error stream has
the line on each malformed document, and log records if these are shown. -/
theorem check_predicts_rewrite (s : Surroundings) (args : List Text) (stdin : Bytes) (fs : FileSystem)
    (flags : Flags) (files : List Text) (plan : Plan)
    (hargs : readArguments args = .ok (.format flags files)) (hplan : flags.plan = .ok plan)
    (hfiles : files ≠ []) (hcheck : flags.check = false) (hdigest : flags.digest = false)
    (hindent : (∃ name ∈ files, ∃ v, parse plan.limit (.bytes (fs.contents (Path.ofText name))) = .ok v) →
      plan.layout.indent.Fits)
    (hwork : Workable plan.options s.replacement (files.map Path.ofText) fs)
    (hdistinct : ((files.map Path.ofText).map fs.place).Nodup)
    (hprint : flags.quiet = false → ∀ name ∈ files, plan.options.changes fs (Path.ofText name) = true →
      (Path.ofText name).toText.SurrogateFree) :
    let checked := run s (Text.ofString "--check" :: args) stdin fs
    let plain := run s args stdin fs
    let rewritten := files.filter fun name =>
      plain.files.fileAt? (fs.place (Path.ofText name)) ≠ fs.fileAt? (fs.place (Path.ofText name))
    checked.files = fs
      ∧ checked.stdout = octets (if plan.quiet then [] else
          rewritten.flatMap (fun name => reformatLine (Path.ofText name).toText)
            ++ countLine rewritten.length files.length)
      ∧ (∃ n, plain.exit = .code n)
      ∧ (∃ n, checked.exit = .code n ∧ (n = 0 ∨ n = 1)
        ∧ (n = 1 ↔ rewritten ≠ [] ∨ ∃ name ∈ files, ∃ e,
          parse plan.limit (.bytes (fs.contents (Path.ofText name))) = .error (.malformed e)))
      ∧ checked.stderr = Text.spellSurrogates (files.flatMap fun name =>
          checkNote s plan (Path.ofText name).toText (fs.contents (Path.ofText name)) (decide (name ∈ rewritten))) := by
  intro checked plain rewritten
  have hplanned := planned_of_plan hplan
  have hready := ready_of_exists hindent
  obtain ⟨hexit, hsettles⟩ :=
    @run_plain s args files stdin fs flags plan hargs hplan hfiles hdigest hready hcheck hwork (.inl hdistinct)
  have hprint' : plan.quiet = false → ∀ q ∈ files.map Path.ofText, plan.options.changes fs q = true →
      q.toText.SurrogateFree := by
    intro hquiet q hq hchanges
    obtain ⟨name, hname, rfl⟩ := List.mem_map.mp hq
    exact hprint (hplanned.quiet.symm.trans hquiet) name hname hchanges
  have hchecked : checked = _ :=
    run_check hargs hplan hfiles hdigest hready hwork.readable hprint'
  have hrewritten : rewritten = files.filter fun name => plan.options.changes fs (Path.ofText name) :=
    filter_fileAt?_ne hwork.readable hsettles
  have hlines : (files.map Path.ofText).filter (plan.options.changes fs) = rewritten.map Path.ofText := by
    rw [hrewritten, List.filter_map]
    rfl
  rw [hchecked]
  refine ⟨rfl, ?_, ⟨_, hexit⟩, ⟨_, rfl, ?_, ?_⟩, ?_⟩
  · rw [List.countP_eq_length_filter, hlines, List.flatMap_map, List.length_map]
  · split
    · exact .inr rfl
    · exact .inl rfl
  · rw [hrewritten, ← any_fault_or_changes_iff hready]
    split
    · rename_i hfailed
      exact iff_of_true rfl hfailed
    · rename_i hfailed
      exact iff_of_false Nat.zero_ne_one hfailed
  · have hnote : ∀ name ∈ files, (printReport s { plan with check := true }
        (Plan.options { plan with check := true } |>.report fs (Path.ofText name))).stderr
        = checkNote s plan (Path.ofText name).toText (fs.contents (Path.ofText name)) (decide (name ∈ rewritten)) := by
      intro name hname
      have hready' : (Plan.options { plan with check := true }).Ready plan.limit (fs.contents (Path.ofText name)) :=
        ⟨rfl, (hready _ (List.mem_map_of_mem hname)).indent⟩
      have hchanges : decide (name ∈ rewritten) = plan.options.changes fs (Path.ofText name) := by
        rw [hrewritten, Bool.eq_iff_iff, decide_eq_true_iff, List.mem_filter]
        exact and_iff_right hname
      rw [hchanges]
      exact @stderr_printReport_check s { plan with check := true } rfl (hplanned.digest.trans hdigest) _ _ hready'
    rw [List.flatMap_map]
    exact congrArg (fun lines => Text.spellSurrogates lines.flatten) (List.map_congr_left hnote)

/-- A file out of canonical form, a malformed one, and one that is settled. -/
theorem check_predicts_rewrite_mixed :
    let a : Text := Text.ofChars ['a']
    let b : Text := Text.ofChars ['b']
    let c : Text := Text.ofChars ['c']
    let s : Surroundings := { replacement := { names := [a] } }
    let fs : FileSystem :=
      { files := [([a], ⟨0o644, [0x30]⟩), ([b], ⟨0o600, []⟩), ([c], ⟨0o644, [0x30, 0x0A]⟩)] }
    Workable ({} : Plan).options s.replacement ([a, b, c].map Path.ofText) fs
      ∧ (([a, b, c].map Path.ofText).map fs.place).Nodup
      ∧ (run s [Text.ofString "--check", a, b, c] [] fs).files = fs
      ∧ ∃ n, (run s [Text.ofString "--check", a, b, c] [] fs).exit = .code n := by
  intro a b c s fs
  have hpaths : ∀ q ∈ [a, b, c].map Path.ofText,
      q = Path.ofText a ∨ q = Path.ofText b ∨ q = Path.ofText c := by
    simp
  have hwork : Workable ({} : Plan).options s.replacement ([a, b, c].map Path.ofText) fs := by
    apply Workable.of_canReplace
    intro q hq
    rcases hpaths q hq with rfl | rfl | rfl
    · exact ⟨[a], _, rfl, rfl, _, rfl⟩
    · exact ⟨[b], _, rfl, rfl, _, rfl⟩
    · exact ⟨[c], _, rfl, rfl, _, rfl⟩
  have hdistinct : (([a, b, c].map Path.ofText).map fs.place).Nodup := by decide
  have hnames : ∀ name ∈ [a, b, c], (Path.ofText name).toText.SurrogateFree := by decide
  obtain ⟨hfiles, -, -, ⟨n, hexit, -⟩, -⟩ := check_predicts_rewrite s [a, b, c] [] fs {} [a, b, c] {} rfl rfl
    (by simp) rfl rfl (fun _ => by decide) hwork hdistinct (fun _ name hname _ => hnames name hname)
  exact ⟨hwork, hdistinct, hfiles, n, hexit⟩

/-- No string is as long as this indentation, so that a check reports nothing on a document that can be read. A
file that cannot be replaced is named by the check, and not rewritten. And a name that cannot be encoded cannot be
printed. -/
theorem not_check_of_countTooLarge :
    let a : Text := Text.ofChars ['a']
    let odd : Text := [.ofNat 0xDC80]
    let wide : List Text := [Text.ofString "--indent", Text.ofString "9223372036854775808", a]
    let s : Surroundings := { replacement := { names := [a] } }
    let refusing : Surroundings := { replacement := { names := [a], refused := some .rename } }
    let fs : FileSystem := { files := [([a], ⟨0o644, [0x30]⟩), ([odd], ⟨0o644, [0x30]⟩)] }
    (∃ v, parse 512 (.bytes [0x30]) = .ok v)
      ∧ (∀ n, (run s (Text.ofString "--check" :: wide) [] fs).exit ≠ .code n)
      ∧ (run refusing [a] [] fs).files.fileAt? [a] = fs.fileAt? [a]
      ∧ (run refusing [Text.ofString "--check", a] [] fs).exit = .code 1
      ∧ (run s [odd] [] fs).exit = .code 0
      ∧ ∀ n, (run s [Text.ofString "--check", odd] [] fs).exit ≠ .code n := by
  intro a odd wide s refusing fs
  have hread : fs.read (Path.ofText a) = .ok ([a], ⟨0o644, [0x30]⟩) := rfl
  have hodd : fs.read (Path.ofText odd) = .ok ([odd], ⟨0o644, [0x30]⟩) := rfl
  have ho : ({} : Plan).options.Ready 512 [0x30] := ready_of_fits (by decide) _
  have hchanged : ({} : Plan).options.settle [0x30] ≠ [0x30] := UpdateOptions.settle_zero_ne 512 true
  have hchanges : ∀ {q place write}, fs.read q = .ok (place, ⟨0o644, [0x30]⟩) →
      UpdateOptions.changes ⟨some {}, some {}, .ok 512, write⟩ fs q = true := by
    intro q place write h
    rw [UpdateOptions.changes, contents_of_read h]
    exact bne_iff_ne.mpr (UpdateOptions.settle_zero_ne 512 write)
  refine ⟨⟨_, parse_zero 512⟩, ?_, ?_, ?_, ?_, ?_⟩
  · intro n
    have hargs : readArguments (Text.ofString "--check" :: wide)
        = .ok (.format { check := true, indent := .given (.spaces 9223372036854775808) } [a]) := by
      rw [readArguments_check]
      rfl
    have hplan : Flags.plan { check := true, indent := .given (.spaces 9223372036854775808) }
        = .ok { check := true, layout := { indent := .spaces 9223372036854775808 } } := rfl
    have hindent : checkIndent (.spaces 9223372036854775808) = .error .countTooLarge :=
      checkIndent_of_index (by decide)
    rw [(run_file_of_wide hargs hplan hread (parse_zero 512) hindent).1]
    simp
  · have hrefused : ¬ CanReplace refusing.replacement (Path.ofText a) [a] fs := by
      intro h
      cases h.1
    obtain ⟨e, -, -, hfiles⟩ :=
      @run_file_of_refused refusing [a] {} {} [] fs a _ _ rfl rfl hread rfl rfl (by decide) hchanged hrefused
    rw [hfiles]
  · have hname : (Path.ofText a).toText.SurrogateFree := by decide
    rw [@run_check refusing [a] [a] [] fs {} {} rfl rfl (by simp) rfl (fun _ _ => ready_of_fits (by decide) _) (by simp [hread])
      (by simp [hname])]
    have hchanges' : ({} : Plan).options.changes fs (Path.ofText a) = true := hchanges hread
    simp [hchanges']
  · have hreplace : CanReplace s.replacement (Path.ofText odd) [odd] fs := ⟨rfl, _, rfl⟩
    have hplain := @runFiles_plain s {} [Path.ofText odd] fs rfl (by decide) rfl _ _
      (updateEach_singleton (updateFile_of_changed ho hodd rfl hchanged hreplace))
    rw [@run_files s [odd] {} {} [] fs [odd] rfl rfl (by simp), List.map_singleton, hplain.1,
      List.map_singleton, fault?_report, contents_of_read hodd, ho.fault?_of_parse (parse_zero 512)]
    rfl
  · intro n
    have ho' : (Plan.options { check := true }).Ready 512 [0x30] := ready_of_fits (by decide) _
    have hupdate := @updateFile_of_kept _ _ s.replacement _ _ _ _ ho' hodd (.inl rfl)
    have hchanges' : (Plan.options { check := true }).changes fs (Path.ofText odd) = true := hchanges hodd
    have hline : ∃ c ∈ (printReport s { check := true }
        ((Plan.options { check := true }).report fs (Path.ofText odd))).stdout, c.isSurrogate = true := by
      rw [(printReport_check s _ rfl rfl).2, isChanged_report, hchanges']
      exact ⟨.ofNat 0xDC80, by decide, by decide⟩
    have hargs : readArguments [Text.ofString "--check", odd] = .ok (.format { check := true } [odd]) := by
      rw [readArguments_check]
      rfl
    obtain ⟨e, he⟩ := @run_file_of_unencodable s _ _ { check := true } [] fs odd fs _ hargs rfl hupdate hline
    rw [he]
    simp

end CanonJson.Command
