import CanonJson.Proofs.Command.Account
import CanonJson.Proofs.Command.Added
import CanonJson.Proofs.Command.Courses
import Mathlib.Data.List.Basic
/-!
# How loud a run is

Two command lines that differ in the switches for the volume come to the same (`account_added`), so that their runs are
compared remark by remark. Log records go to the error stream, where everything can be printed. A quiet run leaves out
remarks that go to the output, and is not the same when one of them cannot be encoded: what would have been the end of
the other run does not happen.
-/

namespace CanonJson.Command

/-! ### Volumes side by side -/

def Flags.atVolume (f : Flags) (v : Volume) : Flags :=
  { f with quiet := v.quiet, verbose := v.verbose, logJson := v.logJson }

def Plan.atVolume (p : Plan) (v : Volume) : Plan :=
  { p with quiet := v.quiet, verbose := v.verbose, logJson := v.logJson }

/-- Choices that go together lead to the same plan at every volume. -/
theorem plan_atVolume {f : Flags} {v : Volume} (hf : (f.quiet && f.verbose) = false)
    (hv : (v.quiet && v.verbose) = false) : (f.atVolume v).plan = f.plan.map (Plan.atVolume · v) := by
  unfold Flags.plan
  change (positive _ _ f.maxDepth >>= fun limit => positive _ _ f.jobs >>= fun jobs => _) = _
  cases positive defaultDepth .depthNotPositive f.maxDepth with
  | error e => rfl
  | ok limit =>
  cases positive 1 .jobsNotPositive f.jobs with
  | error e => rfl
  | ok jobs =>
  simp only [ok_bind, Flags.atVolume, hf, hv]
  change (f.order >>= fun order => f.layout >>= fun layout => _) = (f.order >>= fun order => _).map _
  cases f.order with
  | error e => rfl
  | ok order =>
    cases f.layout with
    | error e => rfl
    | ok layout => rfl

/-- What a plan comes to does not depend on its volume. -/
theorem account_atVolume (course : List Nat) (s : Surroundings) (stdin : Bytes) (fs : FileSystem) (p : Plan)
    (v : Volume) (files : List Text) :
    account course s stdin fs (.ok (.format (p.atVolume v) files))
      = account course s stdin fs (.ok (.format p files)) := by
  cases files <;> rfl

section Congruence

variable {v v' : Volume} {rs : List Remark}

theorem said_congr (hquiet : v'.quiet = v.quiet) (r : Remark) : r.said v' = r.said v := by
  rw [Remark.said, Remark.said, hquiet]

theorem noted_of_silent (s : Surroundings) (hverbose : v.verbose = false) (hverbose' : v'.verbose = false)
    (r : Remark) : r.noted s v' = r.noted s v := by
  cases r with
  | record =>
    rw [Remark.noted, Remark.noted, hverbose, hverbose']
    rfl
  | _ => rfl

/-- Two volumes at which the same can be said, or not, stop at the same remark. -/
theorem spoken_congr
    (h : ∀ r ∈ rs, r.said v' = r.said v ∨ (∃ bs', r.said v' = .ok bs') ∧ ∃ bs, r.said v = .ok bs) :
    spoken v' rs = spoken v rs ∧ unspeakable? v' rs = unspeakable? v rs := by
  induction rs with
  | nil => exact ⟨rfl, rfl⟩
  | cons r rs ih =>
    obtain ⟨hspoken, hunspeakable⟩ := ih fun q hq => h q (List.mem_cons_of_mem r hq)
    have hboth : ∀ {bs bs'}, r.said v' = .ok bs' → r.said v = .ok bs →
        spoken v' (r :: rs) = spoken v (r :: rs) ∧ unspeakable? v' (r :: rs) = unspeakable? v (r :: rs) := by
      intro bs bs' hsaid' hsaid
      rw [spoken_cons_of_ok hsaid, spoken_cons_of_ok hsaid', unspeakable?_cons_of_ok hsaid,
        unspeakable?_cons_of_ok hsaid', hspoken, hunspeakable]
      exact ⟨rfl, rfl⟩
    -- What is said may differ, as long as it is said at both volumes.
    rcases h r List.mem_cons_self with hsame | ⟨⟨bs', hsaid'⟩, bs, hsaid⟩
    · cases hsaid : r.said v with
      | ok bs => exact hboth (hsame.trans hsaid) hsaid
      | error e =>
        have hsaid' := hsame.trans hsaid
        rw [spoken_cons_of_error hsaid, spoken_cons_of_error hsaid', unspeakable?_cons_of_error hsaid,
          unspeakable?_cons_of_error hsaid']
        exact ⟨rfl, rfl⟩
    · exact hboth hsaid' hsaid

/-- What is left out by a quiet run makes no difference to where a run stops, as long as it can be encoded. -/
theorem spoken_of_encodable (h : ∀ source, .reformat source ∈ rs → source.SurrogateFree) :
    spoken v' rs = spoken v rs ∧ unspeakable? v' rs = unspeakable? v rs := by
  apply spoken_congr
  intro r hr
  have hchatter : r.isChatter = true → ∃ bs, r.printed = .ok bs := by
    intro hr'
    cases r with
    | reformat source => exact ⟨_, Utf8.encode_eq_ok (surrogateFree_reformatLine (h source hr))⟩
    | count changed total => exact ⟨_, Utf8.encode_eq_ok (surrogateFree_countLine changed total)⟩
    | output | digest | fault | refusal | record => cases hr'
  cases hcase : r.isChatter with
  | false => exact .inl ((said_of_not_chatter hcase).trans (said_of_not_chatter hcase).symm)
  | true =>
    obtain ⟨bs, hbs⟩ := hchatter hcase
    rw [said_of_chatter hcase, said_of_chatter hcase, hbs]
    right
    constructor <;> split <;> exact ⟨_, rfl⟩

end Congruence

/-! ### Switches for the volume -/

/-- The switches that only have a say in the volume. -/
def volumeSwitches : List Switch :=
  [.quiet, .verbose, .logJson]

/-- The volume with switches turned on. -/
def Volume.raise (v : Volume) (es : List Switch) : Volume :=
  ⟨v.quiet || decide (.quiet ∈ es), v.verbose || decide (.verbose ∈ es), v.logJson || decide (.logJson ∈ es)⟩

theorem raise_nil (v : Volume) : v.raise [] = v := by
  simp [Volume.raise]

theorem raise_turnOn (f : Flags) (e : Switch) (es : List Switch) :
    (f.turnOn e).volume.raise es = f.volume.raise (e :: es) := by
  cases e <;> simp [Volume.raise, Flags.volume, Flags.turnOn]

/-- A volume that can be used could be used before it was raised. -/
theorem compatible_of_raise {v : Volume} {es : List Switch}
    (h : ((v.raise es).quiet && (v.raise es).verbose) = false) : (v.quiet && v.verbose) = false := by
  rw [Volume.raise] at h
  cases hquiet : v.quiet
  · rfl
  · cases hverbose : v.verbose
    · rfl
    · simp [hquiet, hverbose] at h

theorem turnOn_of_volume {e : Switch} (he : e ∈ volumeSwitches) (f : Flags) :
    f.turnOn e = f.atVolume (f.turnOn e).volume := by
  cases e with
  | quiet | verbose | logJson => rfl
  | _ => simp [volumeSwitches] at he

/-- Turning on such switches raises the volume, and changes nothing else. -/
theorem turnOnAll_format {es : List Switch} (hes : ∀ e ∈ es, e ∈ volumeSwitches) (f : Flags) (files : List Text) :
    Request.turnOnAll es (.format f files) = .format (f.atVolume (f.volume.raise es)) files := by
  induction es generalizing f with
  | nil => rw [raise_nil]; rfl
  | cons e es ih =>
    have habsorbed : ∀ v, (f.turnOn e).atVolume v = f.atVolume v := by
      intro v
      rw [turnOn_of_volume (hes e List.mem_cons_self)]
      rfl
    have hrest := ih (fun e' he' => hes e' (List.mem_cons_of_mem e he')) (f.turnOn e)
    rw [raise_turnOn, habsorbed] at hrest
    exact hrest

section Raising

variable {switches : List Switch} (hswitches : ∀ e ∈ switches, e ∈ volumeSwitches)

include hswitches

/-- A command line with such switches added comes to the same at the volume that they raise, unless it is to be quiet
and verbose at once. -/
theorem account_added {args args' : List Text} (hadded : Added switches args args')
    (haccepted : ∃ request, readArguments args' = .ok request)
    (hcompatible : ((volumeOf args').quiet && (volumeOf args').verbose) = false) :
    ∃ es, (∀ e ∈ es, e ∈ switches) ∧ volumeOf args' = (volumeOf args).raise es
      ∧ (args' ≠ args → ∀ f files, readArguments args' = .ok (.format f files) → es ≠ [])
      ∧ ∀ course s stdin fs,
        account course s stdin fs (taskOf args') = account course s stdin fs (taskOf args) := by
  have hplain : ∀ e ∈ switches, e.isPlain = true := by
    intro e he
    have hvolume : ∀ e ∈ volumeSwitches, e.isPlain = true := by decide
    exact hvolume e (hswitches e he)
  obtain ⟨request', hargs'⟩ := haccepted
  obtain ⟨es, request, hes, hargs, rfl, hraised⟩ := readArguments_added hplain hadded hargs'
  cases request with
  | help =>
    rw [Request.turnOnAll, List.foldl_fixed' (fun _ => rfl)] at hargs'
    rw [volumeOf, volumeOf, taskOf, taskOf, hargs, hargs']
    exact ⟨[], by simp, (raise_nil _).symm, fun _ _ _ hformat => (by cases hformat), fun _ _ _ _ => rfl⟩
  | version =>
    rw [Request.turnOnAll, List.foldl_fixed' (fun _ => rfl)] at hargs'
    rw [volumeOf, volumeOf, taskOf, taskOf, hargs, hargs']
    exact ⟨[], by simp, (raise_nil _).symm, fun _ _ _ hformat => (by cases hformat), fun _ _ _ _ => rfl⟩
  | format f files =>
    rw [turnOnAll_format (fun e he => hswitches e (hes e he))] at hargs' hraised
    have hvolume : volumeOf args = f.volume := by rw [volumeOf, hargs]
    have hvolume' : volumeOf args' = f.volume.raise es := by
      rw [volumeOf, hargs']
      rfl
    rw [hvolume'] at hcompatible
    have hplan := plan_atVolume (compatible_of_raise hcompatible) hcompatible
    refine ⟨es, hes, by rw [hvolume, hvolume'], fun hne _ _ _ => ?_, fun course s stdin fs => ?_⟩
    · rcases hraised with hsame | hsome | hhelp | hversion
      · exact absurd hsame hne
      · exact hsome
      · cases hhelp
      · cases hversion
    · rw [taskOf_format hargs, taskOf_format hargs', hplan]
      cases f.plan with
      | error e => rfl
      | ok p => exact account_atVolume course s stdin fs p _ files

end Raising

/-- A quiet run leaves out what a check has to say. -/
theorem heard_of_quiet {v v' : Volume} {rs : List Remark} (h : ∀ r ∈ rs, r.isChatter = true → v'.quiet = true) :
    rs.flatMap (Remark.heard v') = (rs.filter fun r => !r.isChatter).flatMap (Remark.heard v) := by
  induction rs with
  | nil => rfl
  | cons r rs ih =>
    rw [List.flatMap_cons, ih fun q hq => h q (List.mem_cons_of_mem r hq), List.filter_cons]
    cases hchatter : r.isChatter with
    | true => simp [Remark.heard, h r List.mem_cons_self hchatter, hchatter]
    | false => simp [Remark.heard, hchatter]

/-- Only where documents are formatted, there is something that a quiet run leaves out. -/
theorem exists_format_of_chatter {course : List Nat} {s : Surroundings} {args : List Text} {stdin : Bytes}
    {fs : FileSystem} {r : Remark} (hr : r ∈ (account course s stdin fs (taskOf args)).remarks)
    (hchatter : r.isChatter = true) : ∃ f files, readArguments args = .ok (.format f files) := by
  rw [taskOf] at hr
  split at hr
  · rw [List.mem_singleton.mp hr] at hchatter
    cases hchatter
  · rw [List.mem_singleton.mp hr] at hchatter
    cases hchatter
  · rw [List.mem_singleton.mp hr] at hchatter
    cases hchatter
  · rename_i f files hargs
    exact ⟨f, files, hargs⟩

/-- The switches for the volume do not interfere with what a run does, in whatever course of the threads. Log records
change nothing but the records on the error stream: at either volume, it shows what there is to note of the same
remarks. And a switch that is to make a run quiet does so: the run leaves out the lines of a check and its summary,
and nothing else, if the names in them could be printed. -/
theorem volume_does_not_interfere (course : List Nat) (s : Surroundings) (args args' : List Text) (stdin : Bytes)
    (fs : FileSystem) (haccepted : ∃ request, readArguments args' = .ok request) :
    let plain := runOn course s args stdin fs
    let switched := runOn course s args' stdin fs
    let remarks := (account course s stdin fs (taskOf args)).remarks
    let told := spoken (volumeOf args) remarks
    (Added [.verbose, .logJson] args args' → (volumeOf args').quiet = false →
        switched.exit = plain.exit ∧ switched.stdout = plain.stdout ∧ switched.files = plain.files
        ∧ plain.stderr = Text.spellSurrogates (told.flatMap (Remark.noted s (volumeOf args)))
        ∧ switched.stderr = Text.spellSurrogates (told.flatMap (Remark.noted s (volumeOf args')))
        ∧ ∀ r ∈ told, (∀ record, r ≠ .record record) →
          r.noted s (volumeOf args') = r.noted s (volumeOf args))
      ∧ (Added [.quiet] args args' → (volumeOf args').verbose = false →
        switched.files = plain.files
        ∧ (args' ≠ args → ∀ f files, readArguments args' = .ok (.format f files) → f.quiet = true)
        ∧ ((∀ source, .reformat source ∈ remarks → source.SurrogateFree) →
          switched.exit = plain.exit ∧ switched.stderr = plain.stderr
          ∧ plain.stdout = told.flatMap (Remark.heard (volumeOf args))
          ∧ (args' ≠ args →
            switched.stdout = (told.filter fun r => !r.isChatter).flatMap (Remark.heard (volumeOf args))))) := by
  intro plain switched remarks told
  have hplain : plain = Account.told s (volumeOf args) (account course s stdin fs (taskOf args)) :=
    runOn_eq_told course s args stdin fs
  have hswitched : switched = Account.told s (volumeOf args') (account course s stdin fs (taskOf args')) :=
    runOn_eq_told course s args' stdin fs
  refine ⟨fun hadded hquiet => ?_, fun hadded hverbose => ?_⟩
  -- Log records: the same is said, and only what is noted of a record depends on the volume.
  · obtain ⟨es, hes, hvolume, -, hsame⟩ := account_added (by decide) hadded haccepted (by rw [hquiet]; rfl)
    have hkept : (volumeOf args').quiet = (volumeOf args).quiet := by
      have hnone : Switch.quiet ∉ es := fun hmem => absurd (hes _ hmem) (by decide)
      rw [hvolume]
      simp [Volume.raise, hnone]
    have hheard : Remark.heard (volumeOf args') = Remark.heard (volumeOf args) := by
      funext r
      rw [Remark.heard, Remark.heard, hkept]
    obtain ⟨hspoken, hrefused⟩ := @spoken_congr _ _ remarks fun r _ => .inl (said_congr hkept r)
    rw [hplain, hswitched, hsame]
    refine ⟨?_, ?_, rfl, rfl, ?_, ?_⟩
    · rw [Account.told, Account.told, hrefused]
    · rw [Account.told, Account.told, hspoken, hheard]
    · rw [Account.told, hspoken]
    · intro r _ hrecord
      cases r with
      | record record => exact absurd rfl (hrecord record)
      | _ => rfl
  -- Quiet: the same is noted, and both get to the same remarks, since those left out could be encoded.
  · obtain ⟨es, hes, hvolume, hsome, hsame⟩ :=
      account_added (by decide) hadded haccepted (by rw [hverbose, Bool.and_false])
    have hsilent : (volumeOf args).verbose = false := by
      rw [hvolume, Volume.raise, Bool.or_eq_false_iff] at hverbose
      exact hverbose.1
    have hnoted : Remark.noted s (volumeOf args') = Remark.noted s (volumeOf args) :=
      funext (noted_of_silent s hsilent hverbose)
    have hquiet : args' ≠ args → ∀ f files, readArguments args' = .ok (.format f files) →
        (volumeOf args').quiet = true := by
      intro hne f files hargs'
      obtain ⟨e, he⟩ := List.exists_mem_of_ne_nil es (hsome hne f files hargs')
      have hmem : Switch.quiet ∈ es := List.mem_singleton.mp (hes e he) ▸ he
      rw [hvolume]
      simp [Volume.raise, hmem]
    rw [hplain, hswitched, hsame]
    refine ⟨rfl, fun hne f files hargs' => ?_, fun hprint => ?_⟩
    · have hvolume' := hquiet hne f files hargs'
      rwa [volumeOf, hargs'] at hvolume'
    obtain ⟨hspoken, hrefused⟩ := @spoken_of_encodable (volumeOf args) (volumeOf args') remarks hprint
    refine ⟨?_, ?_, rfl, fun hne => ?_⟩
    · rw [Account.told, Account.told, hrefused]
    · rw [Account.told, Account.told, hspoken, hnoted]
    · rw [Account.told, hspoken]
      apply heard_of_quiet
      intro r hr hchatter
      have hremark : r ∈ (account course s stdin fs (taskOf args')).remarks := by
        rw [hsame]
        exact (List.takeWhile_prefix _).subset hr
      obtain ⟨f, files, hargs'⟩ := exists_format_of_chatter hremark hchatter
      exact hquiet hne f files hargs'

/-- A check of two files on two threads, with log records and quiet. -/
theorem volume_does_not_interfere_check :
    let a : Text := Text.ofChars ['a']
    let b : Text := Text.ofChars ['b']
    let base : List Text := [Text.ofString "--check", Text.ofString "--jobs", Text.ofString "2", a, b]
    let loud : List Text := Text.ofString "--verbose" :: Text.ofString "--log-json" :: base
    let quiet : List Text := Text.ofString "--quiet" :: base
    let fs : FileSystem := { files := [([a], ⟨0o644, [0x30]⟩), ([b], ⟨0o644, [0x30]⟩)] }
    Added [.verbose, .logJson] base loud ∧ Added [.quiet] base quiet
      ∧ (volumeOf loud).quiet = false ∧ (volumeOf quiet).verbose = false ∧ (volumeOf quiet).quiet = true
      ∧ (runOn [1, 0] {} loud [] fs).stdout = (runOn [1, 0] {} base [] fs).stdout
      ∧ (runOn [1, 0] {} loud [] fs).exit = (runOn [1, 0] {} base [] fs).exit
      ∧ (runOn [1, 0] {} quiet [] fs).exit = (runOn [1, 0] {} base [] fs).exit
      ∧ (runOn [1, 0] {} quiet [] fs).stderr = (runOn [1, 0] {} base [] fs).stderr := by
  intro a b base loud quiet fs
  have hloud : readArguments loud
      = .ok (.format { check := true, jobs := .given 2, verbose := true, logJson := true } [a, b]) := rfl
  have hquiet : readArguments quiet = .ok (.format { check := true, jobs := .given 2, quiet := true } [a, b]) := rfl
  have htask : taskOf base = .ok (.format { check := true, jobs := 2 } [a, b]) := rfl
  have hadded : Added [.verbose, .logJson] base loud :=
    .insert _ .verbose (by decide) rfl (.insert _ .logJson (by decide) rfl (.same base))
  have hadded' : Added [.quiet] base quiet := .insert _ .quiet (by decide) rfl (.same base)
  have hne : quiet ≠ base := List.cons_ne_self _ _
  have hprint : ∀ source, .reformat source ∈ (account [1, 0] {} [] fs (taskOf base)).remarks →
      source.SurrogateFree := by
    intro source hsource
    rw [htask] at hsource
    rcases name_of_reformat hsource with rfl | ⟨name, hname, rfl⟩
    · exact surrogateFree_ofString "<stdin>"
    · have hnames : ∀ name ∈ [a, b], (Path.ofText name).toText.SurrogateFree := by decide
      exact hnames name hname
  obtain ⟨hexit, hstdout, -⟩ :=
    (volume_does_not_interfere [1, 0] {} base loud [] fs ⟨_, hloud⟩).1 hadded rfl
  obtain ⟨-, hturned, hsame⟩ :=
    (volume_does_not_interfere [1, 0] {} base quiet [] fs ⟨_, hquiet⟩).2 hadded' rfl
  obtain ⟨hexit', hstderr, -⟩ := hsame hprint
  exact ⟨hadded, hadded', rfl, rfl, hturned hne _ _ hquiet, hstdout, hexit, hexit', hstderr⟩

/-- A switch between two files makes a wrong command line of a right one. The line that a quiet check leaves out may be
one that could not have been printed. And on two threads it is left to the threads, with or without a switch, how far
they have come with the second file when the first one turns out to be missing. -/
theorem not_volume_of_separated_files :
    let a : Text := Text.ofChars ['a']
    let b : Text := Text.ofChars ['b']
    let gone : Text := Text.ofChars ['c']
    let odd : Text := [.ofNat 0xDC80]
    let check : Text := Text.ofString "--check"
    let verbose : Text := Text.ofString "--verbose"
    let quiet : Text := Text.ofString "--quiet"
    let threads : List Text := [Text.ofString "--jobs", Text.ofString "2", gone, a]
    let s : Surroundings := { replacement := { names := [a] } }
    let fs : FileSystem :=
      { files := [([a], ⟨0o644, [0x30]⟩), ([b], ⟨0o644, [0x30]⟩), ([odd], ⟨0o644, [0x30]⟩)] }
    Added [.verbose, .logJson] [check, a, b] [check, a, verbose, b]
      ∧ (run {} [check, a, b] [] fs).exit = .code 1
      ∧ (run {} [check, a, verbose, b] [] fs).exit = .code 2
      ∧ Added [.quiet] [check, odd] [check, quiet, odd]
      ∧ (∀ n, (run {} [check, odd] [] fs).exit ≠ .code n)
      ∧ (run {} [check, quiet, odd] [] fs).exit = .code 1
      ∧ Added [.verbose, .logJson] threads (verbose :: threads)
      ∧ (runOn [] s threads [] fs).files.fileAt? [a] = some ⟨0o644, [0x30]⟩
      ∧ (runOn (List.replicate maxTurns 1) s (verbose :: threads) [] fs).files.fileAt? [a]
        = some ⟨0o644, [0x30, 0x0A]⟩ := by
  intro a b gone odd check verbose quiet threads s fs
  have ha : fs.read (Path.ofText a) = .ok ([a], ⟨0o644, [0x30]⟩) := rfl
  have hb : fs.read (Path.ofText b) = .ok ([b], ⟨0o644, [0x30]⟩) := rfl
  have hodd : fs.read (Path.ofText odd) = .ok ([odd], ⟨0o644, [0x30]⟩) := rfl
  have hchanges : ∀ {q place write}, fs.read q = .ok (place, ⟨0o644, [0x30]⟩) →
      UpdateOptions.changes ⟨some {}, some {}, .ok 512, write⟩ fs q = true := by
    intro q place write h
    rw [UpdateOptions.changes, FileSystem.contents_of_read h]
    exact bne_iff_ne.mpr (UpdateOptions.settle_zero_ne 512 write)
  refine ⟨?_, ?_, ?_, ?_, ?_, ?_, .insert _ .verbose (by decide) rfl (.same threads), rfl, ?_⟩
  · exact .keep check (by decide) (.keep a (by decide) (.insert verbose .verbose (by decide) rfl (.same [b])))
  · have hname : (Path.ofText a).toText.SurrogateFree ∧ (Path.ofText b).toText.SurrogateFree := by decide
    have hchanges' : ({} : Plan).options.changes fs (Path.ofText a) = true := hchanges ha
    rw [@run_check {} [a, b] [a, b] [] fs {} {} rfl rfl (by simp) rfl (fun _ _ => ready_of_fits (by decide) _)
      (by simp [ha, hb]) (by simp [hname])]
    simp [hchanges']
  · have htask : taskOf [check, a, verbose, b] = .error (.usage (.unrecognized [b])) := rfl
    rw [run, runWith, htask]
  · exact .keep check (by decide) (.insert quiet .quiet (by decide) rfl (.same [odd]))
  · intro n
    have ho : (Plan.options { check := true }).Ready 512 [0x30] := ready_of_fits (by decide) _
    have hchanges' : (Plan.options { check := true }).changes fs (Path.ofText odd) = true := hchanges hodd
    have hline : ∃ c ∈ (printReport {} { check := true }
        ((Plan.options { check := true }).report fs (Path.ofText odd))).stdout, c.isSurrogate = true := by
      rw [(printReport_check {} _ rfl rfl).2, isChanged_report, hchanges']
      exact ⟨.ofNat 0xDC80, by decide, by decide⟩
    have hargs : readArguments [check, odd] = .ok (.format { check := true } [odd]) := rfl
    obtain ⟨e, he⟩ := @run_file_of_unencodable {} _ _ { check := true } [] fs odd fs _ hargs rfl
      (updateFile_of_kept ho hodd (.inl rfl)) hline
    rw [he]
    simp
  · have hargs : readArguments [quiet, odd] = .ok (.format { quiet := true } [odd]) := rfl
    have hplan : Flags.plan { quiet := true } = .ok { quiet := true } := rfl
    have hchanges' : (Plan.options { quiet := true }).changes fs (Path.ofText odd) = true := hchanges hodd
    rw [@run_check {} [quiet, odd] [odd] [] fs _ _ hargs hplan (by simp) rfl
      (fun _ _ => ready_of_fits (by decide) _) (by simp [hodd]) (by simp)]
    simp [hchanges']
  · have htask : taskOf (verbose :: threads) = .ok (.format { jobs := 2, verbose := true } [gone, a]) := rfl
    have ho : (Plan.options { jobs := 2, verbose := true }).Ready 512 [0x30] := ready_of_fits (by decide) _
    have hreplace : CanReplace s.replacement (Path.ofText a) [a] fs := ⟨rfl, _, rfl⟩
    have hupdate := updateFile_of_changed ho ha rfl (UpdateOptions.settle_zero_ne 512 true) hreplace
    have hgone : ∀ f, (fs.setFile [a] f).read (Path.ofText gone) = .error (.notFound gone) := fun f => rfl
    have hahead := @updateFilesOn_ahead _ _ _ _ _ _ _ 2 (by decide) _ hupdate _ (updateFile_of_read_error (hgone _))
    rw [files_runOn _ htask]
    refine (congrArg (fun batch => batch.2.fileAt? [a]) hahead).trans ?_
    rw [FileSystem.fileAt?_setFile, if_pos rfl]
    exact congrArg (fun bs => some (File.mk 0o644 bs)) (UpdateOptions.settle_zero 512 true)

end CanonJson.Command
