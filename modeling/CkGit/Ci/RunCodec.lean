import CkGit.Ci.JobCodec

/-!
Reading back a run record: parseRun gives the serialized record again for every
record within the parser's bounds, and only such records.
-/
namespace CkGit.Ci
open CkGit.Base

theorem report_texts (report : CiExecutionReport) :
    fromText Platform.text [.windows, .linux, .macos] report.platform.text = some report.platform
      ∧ fromText Architecture.text [.x64, .arm64, .x86] report.architecture.text
        = some report.architecture
      ∧ fromText Isolation.text [.lpac, .hypervHcs, .linuxNamespaces, .seatbelt, .none]
        report.isolation.text = some report.isolation
      ∧ fromText Network.text [.denied, .loopbackOnly, .unrestricted] report.network.text
        = some report.network := by
  refine ⟨?_, ?_, ?_, ?_⟩
  · cases report.platform <;> decide
  · cases report.architecture <;> decide
  · cases report.isolation <;> decide
  · cases report.network <;> decide

/-- The comma-separated fields of a report. -/
def reportFields (report : CiExecutionReport) : List Bytes :=
  [ascii "1", report.platform.text, report.architecture.text, report.isolation.text,
    report.network.text, decimal report.memory_bytes.toNat, decimal report.process_limit.toNat,
    decimal report.timeout_seconds.toNat]

theorem reportFields_clean (report : CiExecutionReport) {byte : UInt8}
    (noDigit : isDigit byte = false) (noName : isNameCharacter byte = false) :
    ∀ field ∈ reportFields report, byte ∉ field := by
  have digits : ∀ n, byte ∉ decimal n := fun n => decimal_avoids noDigit
  have named : ∀ text : Bytes, text.all isNameCharacter → byte ∉ text := fun text all =>
    not_mem_of_all all noName
  intro field member
  simp only [reportFields, List.mem_cons, List.not_mem_nil, or_false] at member
  rcases member with rfl | rfl | rfl | rfl | rfl | rfl | rfl | rfl
  · exact named _ (by decide)
  · exact named _ (by cases report.platform <;> decide)
  · exact named _ (by cases report.architecture <;> decide)
  · exact named _ (by cases report.isolation <;> decide)
  · exact named _ (by cases report.network <;> decide)
  · exact digits _
  · exact digits _
  · exact digits _

theorem parseCiExecutionReport_format (report : CiExecutionReport) :
    parseCiExecutionReport (formatCiExecutionReport report) = .ok report := by
  have fields : (formatCiExecutionReport report).splitOn comma = reportFields report :=
    List.splitOn_intercalate comma (reportFields_clean report (by decide) (by decide))
      (List.cons_ne_nil _ _)
  have short : ¬ (formatCiExecutionReport report).length > 256 := by
    have width := execution_width (some report)
    simp only [executionBytes] at width
    omega
  obtain ⟨platform, architecture, isolation, network⟩ := report_texts report
  have memory : report.memory_bytes.toNat ≤ 2 ^ 64 - 1 :=
    Nat.le_sub_one_of_lt report.memory_bytes.toNat_lt
  have processes : report.process_limit.toNat ≤ 2 ^ 32 - 1 :=
    Nat.le_sub_one_of_lt report.process_limit.toNat_lt
  have timeout : report.timeout_seconds.toNat ≤ 2 ^ 32 - 1 :=
    Nat.le_sub_one_of_lt report.timeout_seconds.toNat_lt
  simp only [parseCiExecutionReport, if_neg short, fields, reportFields, platform, architecture,
    isolation, network, Option.bind_eq_bind, Option.bind_some, if_true, report.consistent,
    dif_pos, parseDecimal_decimal memory, parseDecimal_decimal processes,
    parseDecimal_decimal timeout]
  simp

theorem flag_flag (value : Bool) : (flag value == ascii "1") = value := by
  cases value <;> rfl

theorem parseStep_line {step : CiStepResult} (short : step.name.length ≤ 256) :
    parseStep (stepLine step) = .ok step := by
  have low := Int32.le_toInt step.exit_code
  have high := Int32.toInt_lt step.exit_code
  have exit : parseDecimalInt (2 ^ 31) (2 ^ 31 - 1) (decimalInt step.exit_code.toInt)
      = some step.exit_code.toInt := by
    apply parseDecimalInt_decimalInt
    · exact low
    · omega
  have clean : ∀ part ∈ [decimalInt step.exit_code.toInt, flag step.timed_out,
      flag step.output_truncated, hexEncode step.name], comma ∉ part := by
    intro part member
    simp only [List.mem_cons, List.not_mem_nil, or_false] at member
    rcases member with rfl | rfl | rfl | rfl
    · exact decimalInt_avoids (by decide) (by decide)
    · cases step.timed_out <;> decide
    · cases step.output_truncated <;> decide
    · exact (hexEncode_avoids step.name).2
  have parts := List.splitOn_intercalate comma clean (List.cons_ne_nil _ _)
  simp only [parseStep, bind_ok]
  refine ⟨_, field_append _ _, ?_⟩
  rw [parts]
  simp only [bind_ok, pure_ok]
  refine ⟨_, orFail_ok.mpr exit, step.name, ?_, ?_⟩
  · simpa [fromHex, List.intercalate] using orFail_ok.mpr (hexDecode_hexEncode short)
  · simp [flag_flag]

theorem parseSteps_lines {steps : List CiStepResult}
    (short : ∀ step ∈ steps, step.name.length ≤ 256) :
    (steps.map stepLine).mapM parseStep = .ok steps := by
  induction steps with
  | nil => rfl
  | cons step rest ih =>
    have first := parseStep_line (short step List.mem_cons_self)
    have others := ih fun other inside => short other (List.mem_cons_of_mem _ inside)
    simp only [List.map_cons, List.mapM_cons, bind_ok, pure_ok]
    exact ⟨_, first, _, others, rfl⟩

/-- A record within the bounds of parseRun. -/
structure ReadableRun (run : CiRunRecord) : Prop where
  id_valid : isValidCiId run.run_id
  project_valid : isValidProjectName run.project_name
  commit_valid : isValidObjectId run.commit_id
  membership : validJobMembership run.run_id run.parent_run_id run.workflow_job
  ref_short : run.ref.length ≤ 512
  detail_short : run.detail.length ≤ kMaximumCiDetailBytes
  runner_valid : run.runner = [] ∨ isValidClientId run.runner
  attempt_range : 1 ≤ run.attempt.toNat ∧ run.attempt.toNat ≤ 1000
  steps_few : run.steps.length ≤ kMaximumCiSteps
  names_short : ∀ step ∈ run.steps, step.name.length ≤ 256

theorem stepLine_clean (step : CiStepResult) : newline ∉ stepLine step := by
  have exit : newline ∉ decimalInt step.exit_code.toInt :=
    decimalInt_avoids (by decide) (by decide)
  have flags : ∀ value, newline ∉ flag value := by decide
  have hex := (hexEncode_avoids step.name).1
  have key : newline ∉ ascii "step=" := by decide
  have separator : newline ≠ comma := by decide
  simp only [stepLine, intercalate_four, List.mem_append, List.mem_cons, not_or]
  exact ⟨key, exit, separator, flags _, separator, flags _, separator, hex⟩

theorem report_clean (report : CiExecutionReport) : newline ∉ formatCiExecutionReport report := by
  have parts : ∀ field ∈ reportFields report, newline ∉ field :=
    reportFields_clean report (by decide) (by decide)
  have separator : newline ≠ comma := by decide
  simp only [reportFields, List.mem_cons, List.not_mem_nil, or_false, forall_eq_or_imp,
    forall_eq] at parts
  simp only [formatCiExecutionReport, List.intercalate_cons_cons, List.intercalate_singleton,
    List.mem_append, List.mem_singleton, not_or]
  simp [parts, separator]

theorem ReadableRun.clean {run : CiRunRecord} (h : ReadableRun run) :
    ∀ line ∈ runHeader run ++ run.steps.map stepLine, newline ∉ line := by
  obtain ⟨parent, name⟩ := membership_avoids h.membership
  have digits : ∀ n, newline ∉ decimal n := fun n => decimal_avoids (by decide)
  have runner : newline ∉ (if run.runner.isEmpty then ascii "-" else run.runner) := by
    split
    · decide
    · rename_i filled
      apply isValidClientId_avoids
      exact h.runner_valid.resolve_left fun none => filled (by simp [none])
  intro line member
  simp only [runHeader, List.mem_append, List.mem_cons, List.not_mem_nil, or_false] at member
  rcases member with (((rfl | rfl | rfl | rfl | rfl | rfl | rfl | rfl | rfl | rfl | rfl | rfl | rfl
    | rfl) | report) | rfl) | step
  · split <;> decide
  · exact key_clean (by decide) (isValidCiId_avoids h.id_valid (by decide))
  · exact key_clean (by decide) (isValidProjectName_avoids h.project_valid)
  · exact key_clean (by decide) (hexEncode_avoids run.ref).1
  · exact key_clean (by decide) (isValidObjectId_avoids h.commit_valid)
  · exact key_clean (by decide) (by cases run.status <;> decide)
  · exact key_clean (by decide) (digits _)
  · exact key_clean (by decide) (digits _)
  · exact key_clean (by decide) (digits _)
  · exact key_clean (by decide) runner
  · exact key_clean (by decide) (digits _)
  · exact key_clean (by decide) parent
  · exact key_clean (by decide) name
  · exact key_clean (by decide) (hexEncode_avoids run.detail).1
  · split at report
    · rw [List.mem_singleton.mp report]
      exact key_clean (by decide) (report_clean _)
    · cases report
  · exact key_clean (by decide) (digits _)
  · obtain ⟨result, _, rfl⟩ := List.mem_map.mp step
    exact stepLine_clean result

theorem runHeader_at (run : CiRunRecord) (more : List Bytes) :
    let lines := runHeader run ++ more
    lines.getD 1 [] = ascii "run_id=" ++ run.run_id
      ∧ lines.getD 2 [] = ascii "project=" ++ run.project_name
      ∧ lines.getD 3 [] = ascii "ref_hex=" ++ hexEncode run.ref
      ∧ lines.getD 4 [] = ascii "commit=" ++ run.commit_id
      ∧ lines.getD 5 [] = ascii "status=" ++ ciRunStatusName run.status
      ∧ lines.getD 6 [] = ascii "started_epoch=" ++ decimal run.started_epoch_seconds.toNat
      ∧ lines.getD 7 [] = ascii "finished_epoch=" ++ decimal run.finished_epoch_seconds.toNat
      ∧ lines.getD 8 [] = ascii "heartbeat_epoch=" ++ decimal run.heartbeat_epoch_seconds.toNat
      ∧ lines.getD 9 [] = ascii "runner=" ++ (if run.runner.isEmpty then ascii "-" else run.runner)
      ∧ lines.getD 10 [] = ascii "attempt=" ++ decimal run.attempt.toNat
      ∧ lines.getD 11 [] = ascii "parent_run_id=" ++ run.parent_run_id
      ∧ lines.getD 12 [] = ascii "workflow_job=" ++ run.workflow_job
      ∧ lines.getD 13 [] = ascii "detail_hex=" ++ hexEncode run.detail :=
  ⟨rfl, rfl, rfl, rfl, rfl, rfl, rfl, rfl, rfl, rfl, rfl, rfl, rfl⟩

theorem runSchema_five {rest : List Bytes} (long : 15 ≤ rest.length) :
    runSchema (ascii "schema_version=5" :: rest) = .ok (5, 16) := by
  have enough : ¬ rest.length + 1 < 16 := by omega
  simp [runSchema, bind, Except.bind, failIf, rejectIf, enough, pure, Except.pure]

theorem runSchema_four {rest : List Bytes} (long : 14 ≤ rest.length) :
    runSchema (ascii "schema_version=4" :: rest) = .ok (4, 15) := by
  have other : ascii "schema_version=4" ≠ ascii "schema_version=5" := by decide
  have enough : ¬ rest.length + 1 < 15 := by omega
  simp [runSchema, other, bind, Except.bind, failIf, rejectIf, enough, pure, Except.pure]

theorem parseRunner_lines {run : CiRunRecord}
    (runner_valid : run.runner = [] ∨ isValidClientId run.runner)
    (attempt_range : 1 ≤ run.attempt.toNat ∧ run.attempt.toNat ≤ 1000) {runner attempt : Bytes}
    (runnerLine : runner = ascii "runner=" ++ (if run.runner.isEmpty then ascii "-" else run.runner))
    (attemptLine : attempt = ascii "attempt=" ++ decimal run.attempt.toNat) :
    parseRunner runner attempt = .ok (run.runner, run.attempt) := by
  obtain ⟨value, epoch, range, back⟩ := parseEpoch_attempt attempt_range
  simp only [parseRunner, bind_ok, pure_ok]
  by_cases none : run.runner = []
  · rw [none] at runnerLine ⊢
    have known : ¬ (ascii "-" ≠ ascii "-" ∧ ¬ isValidClientId (ascii "-")) := by simp
    exact ⟨_, field_at runnerLine, (), rejectIf_ok.mpr known, _, field_at attemptLine, _, epoch,
      (), rejectIf_ok.mpr range, by simp [back]⟩
  · have valid := runner_valid.resolve_left none
    have filled : run.runner.isEmpty = false := by simpa using none
    rw [filled] at runnerLine
    have named : run.runner ≠ ascii "-" := by
      intro dash
      rw [dash] at valid
      revert valid
      decide
    have known : ¬ (run.runner ≠ ascii "-" ∧ ¬ isValidClientId run.runner) := by simp [valid]
    refine ⟨_, field_at runnerLine, (), rejectIf_ok.mpr known, _, field_at attemptLine, _, epoch,
      (), rejectIf_ok.mpr range, ?_⟩
    simp [named, back]

/-- The record as a file of this schema gives it back. -/
def CiRunRecord.asOf (version : Nat) (run : CiRunRecord) : CiRunRecord :=
  { run with
    heartbeat_epoch_seconds := if 2 ≤ version then run.heartbeat_epoch_seconds else 0
    runner := if 3 ≤ version then run.runner else []
    attempt := if 3 ≤ version then run.attempt else 1
    parent_run_id := if 4 ≤ version then run.parent_run_id else []
    workflow_job := if 4 ≤ version then run.workflow_job else []
    execution := if 5 ≤ version then run.execution else none }

/-- The lines of a record of this schema: a header of `header` lines, then the steps. -/
structure HoldsRun (version header : Nat) (lines : List Bytes) (run : CiRunRecord) : Prop where
  schema : runSchema lines = .ok (version, header)
  id : lines.getD 1 [] = ascii "run_id=" ++ run.run_id
  project : lines.getD 2 [] = ascii "project=" ++ run.project_name
  ref : lines.getD 3 [] = ascii "ref_hex=" ++ hexEncode run.ref
  commit : lines.getD 4 [] = ascii "commit=" ++ run.commit_id
  status : lines.getD 5 [] = ascii "status=" ++ ciRunStatusName run.status
  started : lines.getD 6 [] = ascii "started_epoch=" ++ decimal run.started_epoch_seconds.toNat
  finished : lines.getD 7 [] = ascii "finished_epoch=" ++ decimal run.finished_epoch_seconds.toNat
  heartbeat : 2 ≤ version →
    lines.getD 8 [] = ascii "heartbeat_epoch=" ++ decimal run.heartbeat_epoch_seconds.toNat
  runner : 3 ≤ version →
    lines.getD 9 [] = ascii "runner=" ++ (if run.runner.isEmpty then ascii "-" else run.runner)
  attempt : 3 ≤ version → lines.getD 10 [] = ascii "attempt=" ++ decimal run.attempt.toNat
  parent : 4 ≤ version → lines.getD 11 [] = ascii "parent_run_id=" ++ run.parent_run_id
  name : 4 ≤ version → lines.getD 12 [] = ascii "workflow_job=" ++ run.workflow_job
  detail : lines.getD (if 5 ≤ version then header - 3 else header - 2) []
    = ascii "detail_hex=" ++ hexEncode run.detail
  execution : 5 ≤ version → ∃ report, run.execution = some report
    ∧ lines.getD (header - 2) [] = ascii "execution=" ++ formatCiExecutionReport report
  count : lines.getD (header - 1) [] = ascii "step_count=" ++ decimal run.steps.length
  steps : lines.drop header = run.steps.map stepLine
  length : lines.length = header + run.steps.length

theorem asOf_membership {run : CiRunRecord} (version : Nat)
    (h : validJobMembership run.run_id run.parent_run_id run.workflow_job) :
    validJobMembership run.run_id (run.asOf version).parent_run_id
      (run.asOf version).workflow_job := by
  by_cases recent : 4 ≤ version
  · simpa [CiRunRecord.asOf, recent] using h
  · simp [CiRunRecord.asOf, recent, validJobMembership]

/-- A readable record is read back from a file of any schema that holds it. -/
theorem parseRun_holds {content : Bytes} {lines : List Bytes} {version header : Nat}
    {run : CiRunRecord} (h : ReadableRun run) (framing : frameLines content = .ok lines)
    (at_lines : HoldsRun version header lines run) : parseRun content = .ok (run.asOf version) := by
  have refRead : fromHex (hexEncode run.ref) 512 = .ok run.ref :=
    orFail_ok.mpr (hexDecode_hexEncode h.ref_short)
  have detailRead : fromHex (hexEncode run.detail) kMaximumCiDetailBytes = .ok run.detail :=
    orFail_ok.mpr (hexDecode_hexEncode h.detail_short)
  have statusRead : orFail "a CI run record has an unknown status"
      (ciRunStatusFromName (ciRunStatusName run.status)) = .ok run.status :=
    orFail_ok.mpr (ciRunStatusFromName_name _)
  have few : run.steps.length ≤ 2 ^ 64 - 1 := by
    have := h.steps_few
    simp only [kMaximumCiSteps] at this
    omega
  have countRead : orFail "a CI step count is malformed"
      (parseDecimal (2 ^ 64 - 1) (decimal run.steps.length)) = .ok run.steps.length :=
    orFail_ok.mpr (parseDecimal_decimal few)
  have shape : ¬ (run.steps.length > kMaximumCiSteps
      ∨ lines.length ≠ header + run.steps.length) := by
    simp [at_lines.length, Nat.not_lt.mpr h.steps_few]
  have stepsRead : (lines.drop header).mapM parseStep = .ok run.steps := by
    rw [at_lines.steps]
    exact parseSteps_lines h.names_short
  have valid : ¬ ¬ (isValidCiId run.run_id ∧ isValidProjectName run.project_name
      ∧ isValidObjectId run.commit_id) :=
    not_not.mpr ⟨h.id_valid, h.project_valid, h.commit_valid⟩
  have member : ¬ ¬ validJobMembership run.run_id (run.asOf version).parent_run_id
      (run.asOf version).workflow_job :=
    not_not.mpr (asOf_membership version h.membership)
  have heartbeatRead : 2 ≤ version → (field "heartbeat_epoch=" (lines.getD 8 [])
      >>= fun text => parseEpoch text) = .ok run.heartbeat_epoch_seconds := by
    intro recent
    rw [field_at (at_lines.heartbeat recent)]
    exact parseEpoch_decimal _
  have runnerRead : since version 3 ([], 1) (parseRunner (lines.getD 9 []) (lines.getD 10 []))
      = .ok ((run.asOf version).runner, (run.asOf version).attempt) := by
    by_cases recent : 3 ≤ version
    · have read := parseRunner_lines h.runner_valid h.attempt_range (at_lines.runner recent)
        (at_lines.attempt recent)
      rw [since, if_pos recent, read]
      simp [CiRunRecord.asOf, recent]
    · simp [since, CiRunRecord.asOf, recent]
  have executionRead : 5 ≤ version → (field "execution=" (lines.getD (header - 2) [])
      >>= fun text => (parseCiExecutionReport text).map some) = .ok run.execution := by
    intro recent
    obtain ⟨report, held, line⟩ := at_lines.execution recent
    rw [field_at line, held]
    simp [bind, Except.bind, parseCiExecutionReport_format, Except.map]
  simp only [parseRun, bind_ok, pure_ok, Prod.exists]
  exact ⟨_, framing, _, _, at_lines.schema, _, field_at at_lines.id, _, field_at at_lines.project,
    _, field_at at_lines.ref, _, refRead, _, field_at at_lines.commit, _, field_at at_lines.status,
    _, statusRead, _, field_at at_lines.started, _, parseEpoch_decimal _,
    _, field_at at_lines.finished, _, parseEpoch_decimal _, _, since_either heartbeatRead,
    _, _, runnerRead, _, since_either fun recent => field_at (at_lines.parent recent),
    _, since_either fun recent => field_at (at_lines.name recent), (), rejectIf_ok.mpr member,
    _, field_at at_lines.detail, _, detailRead, _, since_either executionRead,
    _, field_at at_lines.count, _, countRead, (), rejectIf_ok.mpr shape, _, stepsRead,
    (), rejectIf_ok.mpr valid, rfl⟩

/-- The schema serializeRun writes, and its header. -/
def runVersion (run : CiRunRecord) : Nat := if run.execution.isSome then 5 else 4

theorem serializedRun_holds (run : CiRunRecord) :
    HoldsRun (runVersion run) (runHeader run).length (runHeader run ++ run.steps.map stepLine)
      run := by
  obtain ⟨id, project, ref, commit, status, started, finished, heartbeat, runner, attempt, parent,
    name, detail⟩ := runHeader_at run (run.steps.map stepLine)
  have steps : (runHeader run ++ run.steps.map stepLine).drop (runHeader run).length
      = run.steps.map stepLine := List.drop_left
  have length : (runHeader run ++ run.steps.map stepLine).length
      = (runHeader run).length + run.steps.length := by simp
  cases execution : run.execution with
  | none =>
    have size : (runHeader run).length = 15 := by simp [runHeader, execution]
    have version : runVersion run = 4 := by simp [runVersion, execution]
    rw [size] at steps length ⊢
    rw [version]
    refine ⟨?_, id, project, ref, commit, status, started, finished, fun _ => heartbeat,
      fun _ => runner, fun _ => attempt, fun _ => parent, fun _ => name, detail, ?_, ?_, steps,
      length⟩
    · simp only [runHeader, execution, Option.isSome_none, Bool.false_eq_true, if_false,
        List.cons_append]
      apply runSchema_four
      simp
    · intro recent
      exact absurd recent (by decide)
    · simp [runHeader, execution]
  | some report =>
    have size : (runHeader run).length = 16 := by simp [runHeader, execution]
    have version : runVersion run = 5 := by simp [runVersion, execution]
    rw [size] at steps length ⊢
    rw [version]
    refine ⟨?_, id, project, ref, commit, status, started, finished, fun _ => heartbeat,
      fun _ => runner, fun _ => attempt, fun _ => parent, fun _ => name, detail, ?_, ?_, steps,
      length⟩
    · simp only [runHeader, execution, Option.isSome_some, if_true, List.cons_append]
      apply runSchema_five
      simp
    · intro _
      exact ⟨report, execution, by simp [runHeader, execution]⟩
    · simp [runHeader, execution]

theorem asOf_runVersion (run : CiRunRecord) : run.asOf (runVersion run) = run := by
  unfold runVersion
  split
  · rfl
  · rename_i none
    simp only [Option.isSome_iff_ne_none, ne_eq, not_not] at none
    obtain ⟨⟩ := run
    simp only at none
    simp [CiRunRecord.asOf, none]

/-- A readable record is read back. -/
theorem parseRun_serializeRun {run : CiRunRecord} (h : ReadableRun run) :
    parseRun (serializeRun run) = .ok run := by
  have read := parseRun_holds h (frameLines_framed (by simp [runHeader]) h.clean)
    (serializedRun_holds run)
  rwa [asOf_runVersion] at read

/-- The header of a record in an older schema. -/
def oldRunHeader (version : Nat) (run : CiRunRecord) : List Bytes :=
  let since_started := if version = 1 then 7 else if version = 2 then 8 else if version = 3 then 10
    else 12
  (ascii "schema_version=" ++ decimal version) :: ((runHeader run).drop 1).take since_started
    ++ [ascii "detail_hex=" ++ hexEncode run.detail,
      ascii "step_count=" ++ decimal run.steps.length]

def oldRunText (version : Nat) (run : CiRunRecord) : Bytes :=
  framed (oldRunHeader version run ++ run.steps.map stepLine)

theorem runSchema_old {version header : Nat} {rest : List Bytes}
    (documented : (version, header) = (1, 10) ∨ (version, header) = (2, 11)
      ∨ (version, header) = (3, 13) ∨ (version, header) = (4, 15))
    (long : header ≤ rest.length + 1) :
    runSchema ((ascii "schema_version=" ++ decimal version) :: rest) = .ok (version, header) := by
  have enough : ¬ rest.length + 1 < header := by omega
  have done : (failIf (rest.length + 1 < header) "a CI run record has the wrong shape" >>= fun _ =>
      pure (version, header)) = Except.ok (version, header) :=
    bind_ok.mpr ⟨(), rejectIf_ok.mpr enough, rfl⟩
  rcases documented with h | h | h | h <;> cases h <;> exact done

/-- A record of an older schema is read as the same record. -/
theorem parseRun_old {version : Nat} {run : CiRunRecord} (h : ReadableRun run)
    (documented : 1 ≤ version ∧ version ≤ 4) :
    parseRun (oldRunText version run) = .ok (run.asOf version) := by
  have versions : version = 1 ∨ version = 2 ∨ version = 3 ∨ version = 4 := by omega
  have detail : ascii "detail_hex=" ++ hexEncode run.detail ∈ runHeader run := by simp [runHeader]
  have count : ascii "step_count=" ++ decimal run.steps.length ∈ runHeader run := by
    simp [runHeader]
  have clean : ∀ line ∈ oldRunHeader version run ++ run.steps.map stepLine, newline ∉ line := by
    intro line member
    rcases List.mem_append.mp member with inHeader | step
    · simp only [oldRunHeader, List.cons_append, List.mem_cons, List.mem_append, List.not_mem_nil,
        or_false] at inHeader
      rcases inHeader with rfl | early | rfl | rfl
      · exact key_clean (by decide) (decimal_avoids (by decide))
      · apply h.clean
        exact List.mem_append_left _ (List.mem_of_mem_drop (List.mem_of_mem_take early))
      · exact h.clean _ (List.mem_append_left _ detail)
      · exact h.clean _ (List.mem_append_left _ count)
    · exact h.clean line (List.mem_append_right _ step)
  have framing := frameLines_framed (by simp [oldRunHeader]) clean
  have holds : ∃ header, HoldsRun version header (oldRunHeader version run ++ run.steps.map stepLine)
      run := by
    rcases versions with rfl | rfl | rfl | rfl
    · refine ⟨10, runSchema_old (by decide) (by simp [runHeader]), rfl, rfl, rfl, rfl, rfl, rfl,
        rfl, ?_, ?_, ?_, ?_, ?_, rfl, ?_, rfl, rfl, by simp [oldRunHeader, runHeader]; omega⟩
      all_goals
        intro recent
        exact absurd recent (by decide)
    · refine ⟨11, runSchema_old (by decide) (by simp [runHeader]), rfl, rfl, rfl, rfl, rfl, rfl,
        rfl, fun _ => rfl, ?_, ?_, ?_, ?_, rfl, ?_, rfl, rfl,
        by simp [oldRunHeader, runHeader]; omega⟩
      all_goals
        intro recent
        exact absurd recent (by decide)
    · refine ⟨13, runSchema_old (by decide) (by simp [runHeader]), rfl, rfl, rfl, rfl, rfl, rfl,
        rfl, fun _ => rfl, fun _ => rfl, fun _ => rfl, ?_, ?_, rfl, ?_, rfl, rfl,
        by simp [oldRunHeader, runHeader]; omega⟩
      all_goals
        intro recent
        exact absurd recent (by decide)
    · refine ⟨15, runSchema_old (by decide) (by simp [runHeader]), rfl, rfl, rfl, rfl, rfl, rfl,
        rfl, fun _ => rfl, fun _ => rfl, fun _ => rfl, fun _ => rfl, fun _ => rfl, rfl, ?_, rfl,
        rfl, by simp [oldRunHeader, runHeader]; omega⟩
      intro recent
      exact absurd recent (by decide)
  obtain ⟨header, at_lines⟩ := holds
  exact parseRun_holds h framing at_lines

theorem parseStep_short {line : Bytes} {step : CiStepResult} (h : parseStep line = .ok step) :
    step.name.length ≤ 256 := by
  simp only [parseStep, bind_ok] at h
  obtain ⟨text, _, h⟩ := h
  split at h
  · simp only [bind_ok, pure_ok] at h
    obtain ⟨_, _, name, read, rfl⟩ := h
    exact fromHex_length read
  · cases h

theorem parseRunner_valid {runnerLine attemptLine runner : Bytes} {attempt : UInt32}
    (h : parseRunner runnerLine attemptLine = .ok (runner, attempt)) :
    (runner = [] ∨ isValidClientId runner) ∧ 1 ≤ attempt.toNat ∧ attempt.toNat ≤ 1000 := by
  simp only [parseRunner, bind_ok, failIf, rejectIf_ok, pure_ok, Prod.mk.injEq] at h
  obtain ⟨text, _, _, known, _, _, value, _, _, range, rfl, rfl⟩ := h
  constructor
  · split
    · exact .inl rfl
    · rename_i named
      simp only [not_and, not_not] at known
      exact .inr (known named)
  · exact attempt_range range

/-- Whatever the parser gives is within its bounds. -/
theorem parseRun_readable {content : Bytes} {run : CiRunRecord} (h : parseRun content = .ok run) :
    ReadableRun run := by
  simp only [parseRun, bind_ok, pure_ok, failIf, rejectIf_ok, Prod.exists] at h
  obtain ⟨lines, _, version, header, _, run_id, _, project_name, _, _, _, ref, refRead, commit_id, _,
    _, _, status, _, _, _, started, _, _, _, finished, _, heartbeat, _, runner, attempt, runnerRead,
    parent_run_id, _, workflow_job, _, _, membership, _, _, detail, detailRead, execution, _,
    _, _, count, _, _, few, steps, stepsRead, _, valid, rfl⟩ := h
  obtain ⟨id, project, commit⟩ := not_not.mp valid
  obtain ⟨runnerValid, range⟩ : (runner = [] ∨ isValidClientId runner)
      ∧ 1 ≤ attempt.toNat ∧ attempt.toNat ≤ 1000 := by
    rcases since_ok runnerRead with default | read
    · cases default
      exact ⟨.inl rfl, by decide⟩
    · exact parseRunner_valid read
  have length : steps.length ≤ kMaximumCiSteps := by
    have total := mapM_length stepsRead
    rw [List.length_drop] at total
    simp only [gt_iff_lt, not_or, not_lt, not_not] at few
    omega
  exact ⟨id, project, commit, not_not.mp membership, fromHex_length refRead,
    fromHex_length detailRead, runnerValid, range, length,
    mapM_forall (fun _ _ => parseStep_short) stepsRead⟩

end CkGit.Ci
