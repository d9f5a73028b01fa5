import CanonJson.Proofs.Command.Transcript
import CanonJson.Proofs.Files.Courses
/-!
# What a run comes to

Three switches only say how much of a run is to be seen: `--quiet` leaves out what a check has to say, `--verbose`
shows log records, and `--log-json` spells them as JSON. What a run comes to is told here without them: an exit, the
files, and everything there is to remark, in order. The volume only decides what becomes of each remark, and a run is
its account told at the volume that was asked for, whatever course the threads take (`runOn_eq_told`).

A remark that cannot be encoded ends what is printed, and the run fails. A quiet run may leave it out.
-/

namespace CanonJson.Command

/-! ### Volumes -/

/-- How much of a run is to be seen, and how. -/
structure Volume where
  quiet : Bool := false
  verbose : Bool := false
  logJson : Bool := false

def Flags.volume (f : Flags) : Volume :=
  ⟨f.quiet, f.verbose, f.logJson⟩

def Plan.volume (p : Plan) : Volume :=
  ⟨p.quiet, p.verbose, p.logJson⟩

/-- The volume that a command line asks for. -/
def volumeOf (args : List Text) : Volume :=
  match readArguments args with
  | .ok (.format f _) => f.volume
  | _ => {}

/-- A plan has the volume that was chosen. -/
theorem plan_volume {f : Flags} {p : Plan} (h : f.plan = .ok p) : p.volume = f.volume := by
  obtain ⟨_, -, h⟩ := bind_eq_ok_iff.mp h
  obtain ⟨_, -, h⟩ := bind_eq_ok_iff.mp h
  split at h
  · cases h
  · obtain ⟨_, -, h⟩ := bind_eq_ok_iff.mp h
    obtain ⟨_, -, h⟩ := bind_eq_ok_iff.mp h
    rw [← Except.ok.inj h]
    rfl

/-! ### Remarks -/

/-- Something that a run has to say. -/
inductive Remark where
  /-- What was asked for: the canonical form, a digest of the standard input, or the help. -/
  | output (bs : Bytes)
  /-- The digest of a file. -/
  | digest (line : Text)
  /-- A document is not in canonical form. -/
  | reformat (source : Text)
  /-- The summary of a check. -/
  | count (changed total : Nat)
  /-- A document is malformed. -/
  | fault (source : Text) (e : ParseError)
  /-- The command line is refused. -/
  | refusal (e : UsageError)
  /-- A log record. -/
  | record (r : LogRecord)

namespace Remark

/-- Whether a remark is left out by a quiet run. -/
def isChatter : Remark → Bool
  | .reformat _ | .count _ _ => true
  | _ => false

/-- What is printed for a remark, if it can be encoded. -/
def printed : Remark → Except EncodeError Bytes
  | .output bs => .ok bs
  | .digest line => Utf8.encode line
  | .reformat source => Utf8.encode (reformatLine source)
  | .count changed total => Utf8.encode (countLine changed total)
  | .fault _ _ | .refusal _ | .record _ => .ok []

/-- The same at a volume. -/
def said (v : Volume) (r : Remark) : Except EncodeError Bytes :=
  if v.quiet && r.isChatter then .ok [] else r.printed

/-- What the output shows of a remark. -/
def shown : Remark → Bytes
  | .output bs => bs
  | .digest line => octets line
  | .reformat source => octets (reformatLine source)
  | .count changed total => octets (countLine changed total)
  | .fault _ _ | .refusal _ | .record _ => []

/-- The same at a volume. -/
def heard (v : Volume) (r : Remark) : Bytes :=
  if v.quiet && r.isChatter then [] else r.shown

/-- What is noted of a remark on the error stream. -/
def noted (s : Surroundings) (v : Volume) : Remark → Text
  | .fault source e => faultLine source e
  | .refusal e => usageLines s e
  | .record r => if v.verbose then (if v.logJson then s.rendering.json r else s.rendering.plain r) else []
  | .output _ | .digest _ | .reformat _ | .count _ _ => []

end Remark

/-- The remarks in front of the first one that cannot be encoded. -/
def spoken (v : Volume) (rs : List Remark) : List Remark :=
  rs.takeWhile fun r => (r.said v).isOk

/-- Why the first remark that cannot be encoded cannot be. -/
def unspeakable? (v : Volume) (rs : List Remark) : Option EncodeError :=
  rs.findSome? fun r =>
    match r.said v with
    | .ok _ => none
    | .error e => some e

section Spoken

variable {v : Volume} {r : Remark} {rs : List Remark} {bs : Bytes} {e : EncodeError}

theorem spoken_cons_of_ok (h : r.said v = .ok bs) : spoken v (r :: rs) = r :: spoken v rs :=
  List.takeWhile_cons_of_pos (by rw [h]; rfl)

theorem spoken_cons_of_error (h : r.said v = .error e) : spoken v (r :: rs) = [] :=
  List.takeWhile_cons_of_neg (by rw [h]; exact Bool.false_ne_true)

theorem unspeakable?_cons_of_ok (h : r.said v = .ok bs) : unspeakable? v (r :: rs) = unspeakable? v rs := by
  rw [unspeakable?, List.findSome?_cons, h]
  rfl

theorem unspeakable?_cons_of_error (h : r.said v = .error e) : unspeakable? v (r :: rs) = some e := by
  rw [unspeakable?, List.findSome?_cons, h]

theorem said_of_not_chatter (h : r.isChatter = false) : r.said v = r.printed := by
  rw [Remark.said, h, Bool.and_false, if_neg Bool.false_ne_true]

theorem said_of_chatter (h : r.isChatter = true) : r.said v = if v.quiet then .ok [] else r.printed := by
  rw [Remark.said, h, Bool.and_true]

theorem octets_of_encode {t : Text} (h : Utf8.encode t = .ok bs) : octets t = bs := by
  rw [Utf8.encode] at h
  split at h
  · exact Except.ok.inj h
  · cases h

theorem shown_of_printed (h : r.printed = .ok bs) : r.shown = bs := by
  cases r with
  | digest | reformat | count => exact octets_of_encode h
  | output | fault | refusal | record => exact Except.ok.inj h

theorem heard_of_said (h : r.said v = .ok bs) : r.heard v = bs := by
  rw [Remark.heard]
  rw [Remark.said] at h
  split
  · rename_i hleft
    rw [if_pos hleft] at h
    exact Except.ok.inj h
  · rename_i hkept
    rw [if_neg hkept] at h
    exact shown_of_printed h

/-- As long as everything can be encoded, everything is spoken. -/
theorem spoken_eq_self (h : ∀ r ∈ rs, ∃ bs, r.said v = .ok bs) : spoken v rs = rs ∧ unspeakable? v rs = none := by
  induction rs with
  | nil => exact ⟨rfl, rfl⟩
  | cons r rs ih =>
    obtain ⟨bs, hsaid⟩ := h r List.mem_cons_self
    obtain ⟨hspoken, hnone⟩ := ih fun q hq => h q (List.mem_cons_of_mem r hq)
    rw [spoken_cons_of_ok hsaid, unspeakable?_cons_of_ok hsaid, hspoken]
    exact ⟨rfl, hnone⟩

end Spoken

/-! ### What a run comes to -/

/-- What a run comes to, whatever its volume. -/
structure Account where
  exit : Exit
  remarks : List Remark := []
  files : FileSystem

/-- The run with that account, at a volume. A remark that cannot be encoded makes it fail. -/
def Account.told (s : Surroundings) (v : Volume) (a : Account) : Outcome where
  exit := match unspeakable? v a.remarks with
    | some e => .failed (.document (.unencodable e))
    | none => a.exit
  stdout := (spoken v a.remarks).flatMap (Remark.heard v)
  stderr := Text.spellSurrogates ((spoken v a.remarks).flatMap (Remark.noted s v))
  files := a.files

def reportRemarks (p : Plan) (r : FileReport) : List Remark :=
  match r.outcome with
  | .malformed e => [.record (faultRecord "path" r.path e), .fault r.path e]
  | .formatted _ digest changed written =>
    if p.digest then [.digest (digest ++ "  " ++ r.path ++ "\n")]
    else if p.check && changed then [.reformat r.path]
    else if written then [.record ⟨.info, "file_canonicalized", [("path", .text r.path)]⟩]
    else [.record ⟨.debug, "file_unchanged", [("path", .text r.path)]⟩]

def reportFails (p : Plan) (r : FileReport) : Bool :=
  match r.outcome with
  | .malformed _ => true
  | .formatted _ _ changed _ => !p.digest && (p.check && changed)

def summaryRemarks (p : Plan) (reports : List FileReport) : List Remark :=
  if p.check then [.count (reports.countP FileReport.isChanged) reports.length] else []

/-- What a run on files comes to, in a course of the threads. -/
def accountFiles (course : List Nat) (s : Surroundings) (p : Plan) (paths : List Path) (fs : FileSystem) : Account :=
  match updateFilesOn course p.options p.jobs s.replacement paths fs with
  | (.error e, fs') => { exit := .failed e, files := fs' }
  | (.ok reports, fs') =>
    { exit := .code (if reports.any (reportFails p) then 1 else 0)
      remarks := reports.flatMap (reportRemarks p) ++ summaryRemarks p reports
      files := fs' }

/-- The exit code for a formatted standard input, and the remarks on it. -/
def stdinRemarks (p : Plan) (data : Bytes) (v : Value) : Except Problem (Nat × List Remark) := do
  let canonical ← canonicalize p.order v
  if p.digest then
    return (0, [.output (octets ((← digestValue (some p.order) (some p.layout) canonical) ++ "\n"))])
  let output ← renderBytes p.layout canonical
  if p.check then
    if output != data then return (1, [.reformat stdinName])
    return (0, [])
  return (0, [.output output])

def accountStdin (p : Plan) (data : Bytes) (fs : FileSystem) : Account :=
  match parse p.limit (.bytes data) with
  | .error (.malformed e) =>
    { exit := .code 1
      remarks := [.record (faultRecord "source" stdinName e), .fault stdinName e]
      files := fs }
  | .error e => { exit := .failed (.document e), files := fs }
  | .ok v =>
    match stdinRemarks p data v with
    | .error e => { exit := .failed (.document e), files := fs }
    | .ok (code, remarks) => { exit := .code code, remarks := remarks, files := fs }

/-- What a command line comes to that asks for a task. -/
def account (course : List Nat) (s : Surroundings) (stdin : Bytes) (fs : FileSystem) :
    Except Refusal Task → Account
  | .error (.usage e) => { exit := .code 2, remarks := [.refusal e], files := fs }
  | .error (.problem e) => { exit := .failed (.document e), files := fs }
  | .ok .help => { exit := .code 0, remarks := [.output (octets helpText)], files := fs }
  | .ok .version => { exit := .code 0, remarks := [.output (octets versionText)], files := fs }
  | .ok (.format p []) => accountStdin p stdin fs
  | .ok (.format p files) => accountFiles course s p (files.map Path.ofText) fs

section Sources

variable {course : List Nat} {s : Surroundings} {p : Plan} {source : Text}

theorem path_of_reformat {r : FileReport} (h : .reformat source ∈ reportRemarks p r) : source = r.path := by
  unfold reportRemarks at h
  split at h
  · simp at h
  · split at h
    · simp at h
    · split at h
      · simpa using h
      · split at h <;> simp at h

theorem stdinName_of_reformat {data : Bytes} {v : Value} {code : Nat} {remarks : List Remark}
    (h : stdinRemarks p data v = .ok (code, remarks)) (hsource : .reformat source ∈ remarks) : source = stdinName := by
  obtain ⟨canonical, -, h⟩ := bind_eq_ok_iff.mp h
  split at h
  · obtain ⟨digest, -, h⟩ := bind_eq_ok_iff.mp h
    obtain rfl := (Prod.mk.inj (Except.ok.inj h)).2
    simp at hsource
  · obtain ⟨output, -, h⟩ := bind_eq_ok_iff.mp h
    split at h
    · split at h
      · obtain rfl := (Prod.mk.inj (Except.ok.inj h)).2
        simpa using hsource
      · obtain rfl := (Prod.mk.inj (Except.ok.inj h)).2
        simp at hsource
    · obtain rfl := (Prod.mk.inj (Except.ok.inj h)).2
      simp at hsource

/-- A check names nothing but what it was given. -/
theorem name_of_reformat {stdin : Bytes} {fs : FileSystem} {files : List Text}
    (h : .reformat source ∈ (account course s stdin fs (.ok (.format p files))).remarks) :
    source = stdinName ∨ ∃ name ∈ files, source = (Path.ofText name).toText := by
  cases files with
  | nil =>
    left
    rw [account, accountStdin] at h
    rcases parse_bytes_cases p.limit stdin with ⟨e, hparse⟩ | ⟨v, hparse⟩
    · simp [hparse] at h
    · rw [hparse] at h
      simp only at h
      split at h
      · cases h
      · rename_i code remarks hremarks
        exact stdinName_of_reformat hremarks h
  | cons name names =>
    right
    change .reformat source ∈ (accountFiles course s p ((name :: names).map Path.ofText) fs).remarks at h
    rw [accountFiles] at h
    split at h
    · cases h
    · rename_i reports fs' hbatch
      rcases List.mem_append.mp h with hreport | hsummary
      · obtain ⟨r, hr, hsource⟩ := List.mem_flatMap.mp hreport
        have hpath : r.path ∈ reports.map FileReport.path := List.mem_map_of_mem hr
        rw [paths_of_updateFilesOn hbatch, List.map_map] at hpath
        obtain ⟨q, hq, hpath⟩ := List.mem_map.mp hpath
        exact ⟨q, hq, (path_of_reformat hsource).trans hpath.symm⟩
      · unfold summaryRemarks at hsummary
        split at hsummary <;> simp at hsummary

end Sources

/-! ### A run tells its account -/

/-- A transcript of the remarks at a volume. -/
structure Transcript.Tells (s : Surroundings) (v : Volume) (rs : List Remark) (t : Transcript) : Prop where
  stdout : t.stdout = (spoken v rs).flatMap (Remark.heard v)
  stderr : t.stderr = (spoken v rs).flatMap (Remark.noted s v)
  refused : t.refused = unspeakable? v rs

section Transcripts

variable {s : Surroundings} {v : Volume} {rs : List Remark}

/-- One more remark in front. -/
theorem Transcript.Tells.cons {t : Transcript} (h : t.Tells s v rs) {r : Remark} {bs : Bytes}
    (hsaid : r.said v = .ok bs) (failed : Bool) :
    Tells s v (r :: rs) ⟨bs ++ t.stdout, r.noted s v ++ t.stderr, failed, t.refused⟩ where
  stdout := by
    rw [spoken_cons_of_ok hsaid, List.flatMap_cons, heard_of_said hsaid, h.stdout]
  stderr := by
    rw [spoken_cons_of_ok hsaid, List.flatMap_cons, h.stderr]
  refused := by
    rw [unspeakable?_cons_of_ok hsaid, h.refused]

/-- Something is printed that makes up one remark. -/
theorem tells_line {x : Printed} {ps : List Printed} {r : Remark} (hstdout : Utf8.encode x.stdout = r.said v)
    (hstderr : x.stderr = r.noted s v) (h : (printAll ps).Tells s v rs) :
    (printAll (x :: ps)).Tells s v (r :: rs) := by
  rw [printAll, hstdout, hstderr]
  cases hsaid : r.said v with
  | ok bs => exact h.cons hsaid _
  | error e =>
    refine ⟨?_, ?_, ?_⟩
    · rw [spoken_cons_of_error hsaid]
      rfl
    · rw [spoken_cons_of_error hsaid]
      rfl
    · rw [unspeakable?_cons_of_error hsaid]

variable {p : Plan}

/-- What is printed for a report makes up the remarks on it. -/
theorem tells_report {ps : List Printed} (h : (printAll ps).Tells s p.volume rs) (r : FileReport) :
    (printAll (printReport s p r :: ps)).Tells s p.volume (reportRemarks p r ++ rs) := by
  have hsilent : ∀ record, Remark.said p.volume (.record record) = .ok [] := fun _ => said_of_not_chatter rfl
  have hrecord : ∀ record, (printAll ({ stderr := logLine s p record } :: ps)).Tells s p.volume
      (.record record :: rs) := fun record => tells_line (hsilent record).symm rfl h
  rw [printReport, reportRemarks]
  cases r.outcome with
  | malformed e =>
    -- The record and the line on the fault are printed together, but are two remarks.
    have hfault : Remark.said p.volume (.fault r.path e) = .ok [] := said_of_not_chatter rfl
    have htells := (h.cons hfault true).cons (hsilent (faultRecord "path" r.path e)) true
    exact ⟨htells.stdout, (List.append_assoc ..).trans htells.stderr, htells.refused⟩
  | formatted output digest changed written =>
    simp only
    cases p.digest with
    | true =>
      have hdigest : Remark.said p.volume (.digest (digest ++ "  " ++ r.path ++ "\n"))
          = Utf8.encode (digest ++ "  " ++ r.path ++ "\n") := said_of_not_chatter rfl
      exact tells_line hdigest.symm rfl h
    | false =>
      cases p.check && changed with
      | true =>
        have hsaid : Utf8.encode (if p.quiet then [] else reformatLine r.path)
            = Remark.said p.volume (.reformat r.path) := by
          rw [said_of_chatter rfl, Plan.volume]
          cases p.quiet <;> rfl
        exact tells_line hsaid rfl h
      | false =>
        cases written with
        | true => exact hrecord _
        | false => exact hrecord _

theorem tells_summary (reports : List FileReport) :
    (printAll [{ stdout := summary p reports }]).Tells s p.volume (summaryRemarks p reports) := by
  have hnil : (printAll []).Tells s p.volume [] := ⟨rfl, rfl, rfl⟩
  rw [summary, summaryRemarks]
  cases p.check with
  | true =>
    have hsaid : Utf8.encode (if !p.quiet then countLine (reports.countP FileReport.isChanged) reports.length else [])
        = Remark.said p.volume (.count (reports.countP FileReport.isChanged) reports.length) := by
      rw [said_of_chatter rfl, Plan.volume]
      cases p.quiet <;> rfl
    exact tells_line hsaid rfl hnil
  | false => exact hnil

/-- What is printed for reports, and for a summary that may count others as well. -/
theorem tells_reports (reports all : List FileReport) :
    (printAll (reports.map (printReport s p) ++ [{ stdout := summary p all }])).Tells s p.volume
      (reports.flatMap (reportRemarks p) ++ summaryRemarks p all) := by
  induction reports with
  | nil => exact tells_summary all
  | cons r reports ih =>
    rw [List.flatMap_cons, List.append_assoc]
    exact tells_report ih r

/-- A run that can print everything fails if it fails because of one of the lines. -/
theorem failed_printAll {ps : List Printed} (h : (printAll ps).refused = none) :
    (printAll ps).failed = ps.any Printed.failed := by
  induction ps with
  | nil => rfl
  | cons x ps ih =>
    rw [printAll] at h ⊢
    cases hline : Utf8.encode x.stdout with
    | error e =>
      rw [hline] at h
      cases h
    | ok bs =>
      rw [hline] at h
      rw [List.any_cons, ← ih h]

end Transcripts

section Runs

variable (course : List Nat) (s : Surroundings) (p : Plan) (fs : FileSystem)

theorem printReport_failed (r : FileReport) : (printReport s p r).failed = reportFails p r := by
  rw [printReport, reportFails]
  cases r.outcome with
  | malformed e => rfl
  | formatted output digest changed written =>
    simp only
    cases p.digest with
    | true => rfl
    | false =>
      cases p.check && changed with
      | true => rfl
      | false => cases written <;> rfl

theorem runFilesOn_eq_told (paths : List Path) :
    { runFilesOn course s p paths fs with stderr := Text.spellSurrogates (runFilesOn course s p paths fs).stderr }
      = (accountFiles course s p paths fs).told s p.volume := by
  rw [runFilesOn, accountFiles]
  rcases updateFilesOn course p.options p.jobs s.replacement paths fs with ⟨e | reports, fs'⟩
  · rfl
  · have htells := @tells_reports s p reports reports
    have hfailed := @failed_printAll (reports.map (printReport s p) ++ [{ stdout := summary p reports }])
    simp only [List.any_append, List.any_map, Function.comp_def, printReport_failed, List.any_cons, List.any_nil,
      Bool.or_false] at hfailed
    simp only [reportBatch, Account.told, ← htells.stdout, ← htells.stderr, ← htells.refused]
    cases hrefused : Transcript.refused _ with
    | some e => rfl
    | none => rw [hfailed hrefused]

/-- A run with a single remark, which goes to the output. -/
theorem told_output {v : Volume} {r : Remark} {bs : Bytes} (hsaid : r.said v = .ok bs) (hnoted : r.noted s v = [])
    (code : Nat) :
    Account.told s v { exit := .code code, remarks := [r], files := fs }
      = { exit := .code code, stdout := bs, files := fs } := by
  have hspoken : spoken v [r] = [r] ∧ unspeakable? v [r] = none := spoken_eq_self (by simp [hsaid])
  simp only [Account.told, hspoken, List.flatMap_singleton, heard_of_said hsaid, hnoted]
  rfl

/-- A standard input that is formatted is told with the exit code, unless there is none. -/
theorem formatStdin_told (data : Bytes) (v : Value) :
    (∃ e, formatStdin p data v = .error e ∧ stdinRemarks p data v = .error e)
      ∨ ∃ code bs remarks, formatStdin p data v = .ok (code, bs) ∧ stdinRemarks p data v = .ok (code, remarks)
        ∧ Account.told s p.volume { exit := .code code, remarks := remarks, files := fs }
          = { exit := .code code, stdout := bs, files := fs } := by
  rw [formatStdin, stdinRemarks]
  cases canonicalize p.order v with
  | error e => exact .inl ⟨e, rfl, rfl⟩
  | ok canonical =>
  simp only [ok_bind]
  cases p.digest with
  | true =>
    cases digestValue (some p.order) (some p.layout) canonical with
    | error e => exact .inl ⟨e, rfl, rfl⟩
    | ok digest => exact .inr ⟨0, _, _, rfl, rfl, told_output s fs (said_of_not_chatter rfl) rfl 0⟩
  | false =>
    cases renderBytes p.layout canonical with
    | error e => exact .inl ⟨e, rfl, rfl⟩
    | ok output =>
      simp only [ok_bind]
      cases p.check with
      | false => exact .inr ⟨0, _, _, rfl, rfl, told_output s fs (said_of_not_chatter rfl) rfl 0⟩
      | true =>
        cases output != data with
        | false => exact .inr ⟨0, [], [], rfl, rfl, rfl⟩
        | true =>
          have hsaid : Remark.said p.volume (.reformat stdinName)
              = .ok (if p.quiet then [] else octets (reformatLine stdinName)) := by
            have hname : stdinName.SurrogateFree := surrogateFree_ofString "<stdin>"
            have hline := Utf8.encode_eq_ok (surrogateFree_reformatLine hname)
            rw [said_of_chatter rfl, Remark.printed, hline, Plan.volume]
            cases p.quiet <;> rfl
          exact .inr ⟨1, _, _, rfl, rfl, told_output s fs hsaid rfl 1⟩

theorem runStdin_eq_told (data : Bytes) :
    { runStdin s p data fs with stderr := Text.spellSurrogates (runStdin s p data fs).stderr }
      = (accountStdin p data fs).told s p.volume := by
  rw [runStdin, accountStdin]
  rcases parse_bytes_cases p.limit data with ⟨e, hparse⟩ | ⟨v, hparse⟩
  · have hrecord : Remark.said p.volume (.record (faultRecord "source" stdinName e)) = .ok [] :=
      said_of_not_chatter rfl
    have hfault : Remark.said p.volume (.fault stdinName e) = .ok [] := said_of_not_chatter rfl
    obtain ⟨hspoken, hnone⟩ :=
      @spoken_eq_self p.volume [.record (faultRecord "source" stdinName e), .fault stdinName e]
        (by simp [hrecord, hfault])
    simp only [hparse, Account.told, hspoken, hnone, List.flatMap_cons, List.flatMap_nil, List.append_nil,
      heard_of_said hrecord, heard_of_said hfault]
    rfl
  · rw [hparse]
    rcases formatStdin_told s p fs data v with ⟨e, hformat, hremarks⟩ | ⟨code, bs, remarks, hformat, hremarks, htold⟩
    · simp only [hformat, hremarks]
      rfl
    · simp only [hformat, hremarks, htold]
      rfl

end Runs

theorem taskOf_format {args files : List Text} {f : Flags} (hargs : readArguments args = .ok (.format f files)) :
    taskOf args = f.plan.map (Task.format · files) := by
  rw [taskOf, hargs]
  simp only
  cases f.plan <;> rfl

/-- A run tells what it comes to, at the volume that was asked for. -/
theorem runOn_eq_told (course : List Nat) (s : Surroundings) (args : List Text) (stdin : Bytes) (fs : FileSystem) :
    runOn course s args stdin fs = (account course s stdin fs (taskOf args)).told s (volumeOf args) := by
  have hrefused : ∀ v e, Account.told s v (account course s stdin fs (.error (.usage e)))
      = { exit := .code 2, stderr := Text.spellSurrogates (usageLines s e), files := fs } := by
    intro v e
    have hsaid : Remark.said v (.refusal e) = .ok [] := said_of_not_chatter rfl
    obtain ⟨hspoken, hnone⟩ := @spoken_eq_self v [.refusal e] (by simp [hsaid])
    simp only [account, Account.told, hspoken, hnone, List.flatMap_singleton, heard_of_said hsaid]
    rfl
  have hshown : ∀ v t, Account.told s v { exit := .code 0, remarks := [.output (octets t)], files := fs }
      = { exit := .code 0, stdout := octets t, files := fs } :=
    fun v t => told_output s fs (said_of_not_chatter rfl) rfl 0
  cases hargs : readArguments args with
  | error e =>
    rw [runOn, runWith, taskOf, hargs, hrefused]
  | ok request =>
  cases request with
  | help =>
    rw [runOn, runWith, taskOf, hargs, account, hshown]
    simp only [perform]
    generalize octets helpText = bs
    rfl
  | version =>
    rw [runOn, runWith, taskOf, hargs, account, hshown]
    simp only [perform]
    generalize octets versionText = bs
    rfl
  | format f files =>
    have hvolume : volumeOf args = f.volume := by rw [volumeOf, hargs]
    have htask := taskOf_format hargs
    cases hplan : f.plan with
    | error e =>
      have hrefusal : taskOf args = .error e := by rw [htask, hplan]; rfl
      rw [runOn, runWith, hrefusal]
      cases e with
      | usage e => rw [hrefused]
      | problem e => rfl
    | ok p =>
      have hplanned : taskOf args = .ok (.format p files) := by rw [htask, hplan]; rfl
      rw [runOn, runWith, hplanned, hvolume, ← plan_volume hplan]
      cases files with
      | nil => exact runStdin_eq_told s p fs stdin
      | cons name names => exact runFilesOn_eq_told course s p fs _

end CanonJson.Command
