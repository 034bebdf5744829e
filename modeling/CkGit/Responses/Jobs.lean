import CkGit.Responses.Status

/-!
ci-placement, ci-jobs and ci-log: what the parser of each accepts is what its
formatter writes.
-/
namespace CkGit.Responses
open CkGit.Base CkGit.Base.Grammar CkGit.Ci

/-- Where a run stands, as the client accepts it. -/
structure GoodPlacement (placement : CiRunPlacement) : Prop where
  runner : (placement.runner.isEmpty || isValidClientId placement.runner) = true
  attempt : placement.attempt ≠ 0

theorem placementFields_printed {placement : CiRunPlacement} (good : GoodPlacement placement) :
    ∀ field ∈ placementFields placement, Printed field := by
  intro field member
  simp only [placementFields, List.mem_cons, List.not_mem_nil, or_false] at member
  rcases member with rfl | rfl
  · exact printed_runner good.runner
  · exact printed_decimal _

theorem spells_placement : Spells (record (ascii "ok") readPlacement) fun placement used =>
    GoodPlacement placement ∧ used = [header (placementFields placement)] := by
  refine spells_exact (by decide) (fun found placement _ => ?_)
    fun placement good field member => (placementFields_printed good field member).isWord
  constructor
  · intro read
    unfold readPlacement at read
    split at read
    · simp only [Option.bind_eq_bind, Option.bind_eq_some_iff, readRunner_spelled, readAttempt_spelled, pure,
        Option.some.injEq] at read
      obtain ⟨runner, ⟨valid, rfl⟩, attempt, ⟨positive, rfl⟩, rfl⟩ := read
      exact ⟨⟨valid, positive⟩, rfl⟩
    · cases read
  · rintro ⟨good, rfl⟩
    simp only [placementFields, readPlacement, Option.bind_eq_bind, Option.bind_eq_some_iff, readRunner_spelled,
      readAttempt_spelled, pure, Option.some.injEq]
    exact ⟨placement.runner, ⟨good.runner, rfl⟩, placement.attempt, ⟨good.attempt, rfl⟩, rfl⟩

theorem placement_short {placement : CiRunPlacement} (good : GoodPlacement placement) :
    (framed [header (placementFields placement)]).length ≤ kMaximumControlResponseBytes := by
  have attempt : (decimal placement.attempt.toNat).length ≤ 20 :=
    decimal_short (Nat.lt_trans placement.attempt.toNat_lt (by decide))
  have runner : (orDash placement.runner).length ≤ 64 := by
    have valid := good.runner
    unfold orDash
    split
    · decide
    · simp_all [isValidClientId]
  have whole : (framed [header (placementFields placement)]).length
      = (orDash placement.runner).length + (decimal placement.attempt.toNat).length + 5 := by
    simp [header, unwords, ascii, placementFields]
    omega
  rw [whole, kMaximumControlResponseBytes]
  omega

/-- A placement is written exactly when it is good. -/
theorem formatCiPlacement_exact {placement : CiRunPlacement} {response : Bytes} :
    formatCiPlacementControlResponse placement = some response
      ↔ GoodPlacement placement ∧ response = framed [header (placementFields placement)] := by
  unfold formatCiPlacementControlResponse
  constructor
  · intro written
    split at written
    · cases written
    · rename_i accepted
      obtain rfl := Option.some.inj written
      refine ⟨⟨?_, ?_⟩, rfl⟩
      · cases empty : placement.runner.isEmpty <;> simp_all
      · intro none
        simp [none] at accepted
  · rintro ⟨good, rfl⟩
    rw [if_neg]
    have runner := good.runner
    have attempt := good.attempt
    cases empty : placement.runner.isEmpty <;> simp_all

/-- Writing and parsing a placement are inverse to each other. -/
theorem placement_round_trip {placement : CiRunPlacement} {response : Bytes} :
    formatCiPlacementControlResponse placement = some response
      ↔ parseCiPlacementControlResponse response = some placement := by
  have read : parseResponse (record (ascii "ok") readPlacement) response = some placement ↔ GoodPlacement placement
      ∧ response = framed [header (placementFields placement)] ∧ response.length ≤ kMaximumControlResponseBytes := by
    refine parseResponse_exact spells_placement (fun _ => List.cons_ne_nil _ _) fun placement good line member => ?_
    rw [List.mem_singleton.mp member]
    exact header_clean (placementFields_printed good)
  rw [parseCiPlacementControlResponse, read, formatCiPlacement_exact]
  constructor
  · rintro ⟨good, rfl⟩
    exact ⟨good, rfl, placement_short good⟩
  · rintro ⟨good, whole, -⟩
    exact ⟨good, whole⟩

/-- A job whose fields read back as they are; its names are checked by the formatter. -/
structure GoodJob (job : CiWorkflowJobSummary) : Prop where
  labels : Canonical job.runs_on
  attempt : job.placement.attempt ≠ 0
  runner : job.placement.runner ≠ dash
  words : ∀ field ∈ jobFields job, IsWord field

/-- A job line is read exactly when its fields are those of a good job. -/
theorem readJob_spelled {found : List Bytes} {job : CiWorkflowJobSummary} (words : ∀ field ∈ found, IsWord field) :
    readJob found = some job ↔ GoodJob job ∧ found = jobFields job := by
  constructor
  · intro read
    unfold readJob at read
    split at read
    · rename_i name run_id status runner attempt labels
      have filled : labels ≠ [] := (words labels (by simp)).1
      have named : runner ≠ [] := (words runner (by simp)).1
      simp only [Option.bind_eq_bind, Option.bind_eq_some_iff, ciRunStatusFromName_spelled, readLabels_spelled filled,
        readAttempt_spelled, pure, Option.some.injEq] at read
      obtain ⟨status, rfl, labels, ⟨canonical, rfl⟩, attempt, ⟨positive, rfl⟩, rfl⟩ := read
      have back : orDash (if runner = dash then [] else runner) = runner := by
        by_cases blank : runner = dash
        · rw [if_pos blank, blank]
          rfl
        · rw [if_neg blank, orDash, if_neg (by simpa using named)]
      have fields : [name, run_id, ciRunStatusName status, runner, decimal attempt.toNat, sortedLabels labels]
          = jobFields { name, run_id, status, placement := { runner := if runner = dash then [] else runner, attempt }
                        runs_on := labels } := by
        simp only [jobFields, back]
      refine ⟨⟨canonical, positive, ?_, fun field member => words field (fields ▸ member)⟩, fields⟩
      change (if runner = dash then [] else runner) ≠ dash
      split
      · decide
      · assumption
    · cases read
  · rintro ⟨good, rfl⟩
    have filled : sortedLabels job.runs_on ≠ [] := (words _ (by simp [jobFields])).1
    have back : (if orDash job.placement.runner = dash then [] else orDash job.placement.runner)
        = job.placement.runner := by
      cases named : job.placement.runner with
      | nil => rfl
      | cons byte rest =>
        have other := good.runner
        rw [named] at other
        exact if_neg other
    simp only [jobFields, readJob, Option.bind_eq_bind, Option.bind_eq_some_iff, ciRunStatusFromName_spelled,
      readLabels_spelled filled, readAttempt_spelled, pure, Option.some.injEq, back]
    exact ⟨job.status, rfl, job.runs_on, ⟨good.labels, rfl⟩, job.placement.attempt, ⟨good.attempt, rfl⟩, rfl⟩

def jobLines (job : CiWorkflowJobSummary) : List Bytes := [unwords (ascii "job" :: jobFields job)]

/-- The header and a line for each job. -/
def jobsLines (report : CiJobsReport) : List Bytes :=
  header [report.parent_run_id, decimal report.jobs.length] :: report.jobs.flatMap jobLines

/-- A listing of jobs as the client accepts it. -/
structure GoodJobs (report : CiJobsReport) : Prop where
  parent : IsWord report.parent_run_id
  few : report.jobs.length ≤ kMaximumCiJobs
  jobs : EachAfter (fun _ => GoodJob) [] report.jobs

theorem spells_jobsHeader : Spells (record (ascii "ok") readJobsHeader) fun head used =>
    IsWord head.1 ∧ used = [header [head.1, decimal head.2.toNat]] := by
  refine spells_exact (by decide) (fun found head words => ?_) fun head good field member => ?_
  · obtain ⟨parent, count⟩ := head
    constructor
    · intro read
      unfold readJobsHeader at read
      split at read
      · simp only [Option.bind_eq_bind, Option.bind_eq_some_iff, parseNumber_spelled, pure, Option.some.injEq] at read
        obtain ⟨_, rfl, same⟩ := read
        obtain ⟨rfl, rfl⟩ := Prod.mk.inj same
        exact ⟨words _ List.mem_cons_self, rfl⟩
      · cases read
    · rintro ⟨-, rfl⟩
      simp [readJobsHeader, Option.bind_eq_some_iff, parseNumber_spelled]
  · simp only [List.mem_cons, List.not_mem_nil, or_false] at member
    rcases member with rfl | rfl
    · exact good
    · exact (printed_decimal _).isWord

/-- The grammar of the listing spells exactly the good ones. -/
theorem spells_jobs : Spells jobsGrammar fun report used => GoodJobs report ∧ used = jobsLines report := by
  have each : ∀ _ : List CiWorkflowJobSummary, Spells (record (ascii "job") readJob) fun job used =>
      GoodJob job ∧ used = jobLines job := fun _ =>
    spells_exact (by decide) (fun _ _ words => readJob_spelled words) fun _ good => good.words
  refine (spells_bind spells_jobsHeader fun head => spells_checked
    (spells_map (spells_collect each head.2.toNat []) _)).congr fun report used => ?_
  constructor
  · rintro ⟨⟨parent, count⟩, _, back, ⟨word, rfl⟩, ⟨few, jobs, ⟨new, rfl, size, lines⟩, rfl⟩, rfl⟩
    obtain ⟨each, rfl⟩ := collected_exact.mp lines
    refine ⟨⟨word, ?_, by simpa using each⟩, ?_⟩
    · change jobs.length ≤ _
      rw [size]
      exact of_decide_eq_true few
    · rw [jobsLines, ← size]
      rfl
  · rintro ⟨good, rfl⟩
    have size := count_of good.few (by decide)
    refine ⟨(report.parent_run_id, .ofNat report.jobs.length), _, report.jobs.flatMap jobLines,
      ⟨good.parent, rfl⟩, ⟨?_, report.jobs, ⟨report.jobs, rfl, size.symm,
      collected_exact.mpr ⟨good.jobs, rfl⟩⟩, rfl⟩, ?_⟩
    · rw [size]
      exact decide_eq_true good.few
    · rw [jobsLines, size]
      rfl

/-- What the formatter asks of a report. -/
structure WritableJobs (report : CiJobsReport) : Prop where
  parent : isValidCiId report.parent_run_id = true
  few : report.jobs.length ≤ kMaximumCiJobs
  names : (report.jobs.map (·.name)).Nodup
  ids : (report.jobs.map (·.run_id)).Nodup
  jobs : ∀ job ∈ report.jobs, representableJob report.parent_run_id job = true ∧ True

/-- A listing is written exactly when it is writable. -/
theorem formatCiJobs_exact {report : CiJobsReport} {response : Bytes} :
    formatCiJobsControlResponse report = some response ↔ WritableJobs report ∧ response = framed (jobsLines report)
      ∧ response.length ≤ kMaximumControlResponseBytes := by
  have start : isValidCiId report.parent_run_id = true → report.jobs.length ≤ kMaximumCiJobs →
      (framed [header [report.parent_run_id, decimal report.jobs.length]]).length ≤ kMaximumControlResponseBytes := by
    intro valid few
    have count := decimal_short (Nat.lt_of_le_of_lt few (by decide))
    have parent : report.parent_run_id.length ≤ 64 := by
      simp only [isValidCiId, Bool.and_eq_true, decide_eq_true_eq] at valid
      exact valid.1.2
    have whole : (framed [header [report.parent_run_id, decimal report.jobs.length]]).length
        = report.parent_run_id.length + (decimal report.jobs.length).length + 5 := by
      simp [header, unwords, ascii]
      omega
    rw [whole, kMaximumControlResponseBytes]
    omega
  have lines : ∀ parent : Bytes, ∀ job, Appends (appendJob parent · job) (representableJob parent job = true ∧ True)
      (jobLines job) := fun parent job => (appends_append _).guard (representableJob parent job)
  unfold formatCiJobsControlResponse
  constructor
  · intro written
    split at written
    · rename_i accepted
      simp only [Bool.and_eq_true, decide_eq_true_eq] at accepted
      obtain ⟨⟨⟨parent, few⟩, names⟩, ids⟩ := accepted
      obtain ⟨jobs, whole, short⟩ := (appends_foldlM report.jobs (lines _) _ response (start parent few)).mp written
      rw [← framed_append] at whole
      exact ⟨⟨parent, few, names, ids, jobs⟩, whole, short⟩
    · cases written
  · rintro ⟨writable, whole, short⟩
    rw [if_pos (by simp [writable.parent, writable.few, writable.names, writable.ids])]
    refine (appends_foldlM report.jobs (lines _) _ response (start writable.parent writable.few)).mpr
      ⟨writable.jobs, ?_, short⟩
    rw [← framed_append]
    exact whole

/-- What was parsed is written as it was. -/
theorem parsed_jobs_written {response : Bytes} {report : CiJobsReport}
    (read : parseCiJobsControlResponse response = some report) : formatCiJobsControlResponse report = some response := by
  obtain ⟨parsed, fits⟩ := Option.filter_eq_some_iff.mp read
  obtain ⟨lines, ⟨good, rfl⟩, whole, -⟩ := (parseResponse_spelled spells_jobs).mp parsed
  obtain ⟨text, written⟩ := Option.isSome_iff_exists.mp fits
  obtain ⟨-, same, -⟩ := formatCiJobs_exact.mp written
  rw [written, same, whole]

/-- Labels as a stored record holds them. -/
def ProducedJobs (report : CiJobsReport) : Prop := ∀ job ∈ report.jobs, sortedUnique job.runs_on = job.runs_on

theorem jobFields_printed {parent : Bytes} {job : CiWorkflowJobSummary} (canonical : Canonical job.runs_on)
    (fits : representableJob parent job = true) : ∀ field ∈ jobFields job, Printed field := by
  simp only [representableJob, Bool.and_eq_true] at fits
  obtain ⟨⟨⟨⟨⟨⟨name, run_id⟩, -⟩, -⟩, -⟩, runner⟩, -⟩ := fits
  intro field member
  simp only [jobFields, List.mem_cons, List.not_mem_nil, or_false] at member
  rcases member with rfl | rfl | rfl | rfl | rfl | rfl
  · exact printed_artifact name
  · exact printed_id run_id
  · exact printed_status _
  · exact printed_runner runner
  · exact printed_decimal _
  · exact printed_labels canonical

/-- Sorted labels that can be represented are canonical. -/
theorem canonical_of {parent : Bytes} {job : CiWorkflowJobSummary} (sorted : sortedUnique job.runs_on = job.runs_on)
    (fits : representableJob parent job = true) : Canonical job.runs_on := by
  simp only [representableJob, Bool.and_eq_true, decide_eq_true_eq] at fits
  obtain ⟨⟨⟨⟨⟨⟨-, -⟩, -⟩, few⟩, valid⟩, -⟩, -⟩ := fits
  have parsed := parseCiLabelList_format (List.all_eq_true.mp valid) (by rw [sorted]; exact few)
  rwa [sorted] at parsed

/-- What was written for a produced listing is parsed as it was. -/
theorem written_jobs_parsed {response : Bytes} {report : CiJobsReport} (produced : ProducedJobs report)
    (written : formatCiJobsControlResponse report = some response) :
    parseCiJobsControlResponse response = some report := by
  obtain ⟨writable, whole, short⟩ := formatCiJobs_exact.mp written
  have printed : ∀ job ∈ report.jobs, ∀ field ∈ jobFields job, Printed field := fun job member =>
    jobFields_printed (canonical_of (produced job member) (writable.jobs job member).1) (writable.jobs job member).1
  have clean : ∀ line ∈ jobsLines report, CleanLine line := by
    intro line member
    rcases List.mem_cons.mp member with rfl | inside
    · refine header_clean fun field among => ?_
      simp only [List.mem_cons, List.not_mem_nil, or_false] at among
      rcases among with rfl | rfl
      · exact printed_id writable.parent
      · exact printed_decimal _
    · obtain ⟨job, among, same⟩ := List.mem_flatMap.mp inside
      obtain rfl := List.mem_singleton.mp same
      exact record_clean (by decide) (printed job among)
  refine Option.filter_eq_some_iff.mpr ⟨?_, by rw [written]; rfl⟩
  refine (parseResponse_spelled spells_jobs).mpr ⟨_, ⟨⟨(printed_id writable.parent).isWord, writable.few, ?_⟩, rfl⟩,
    whole, List.cons_ne_nil _ _, short, clean⟩
  refine eachAfter_iff.mpr fun front job back same => ?_
  have member : job ∈ report.jobs := by rw [same]; simp
  have fits := (writable.jobs job member).1
  have canonical := canonical_of (produced job member) fits
  simp only [representableJob, Bool.and_eq_true] at fits
  refine ⟨canonical, by simpa using fits.2, ?_, fun field among => (printed job member field among).isWord⟩
  intro blank
  have valid := fits.1.2
  rw [blank] at valid
  revert valid
  decide

/-- The bytes of a chunk, in hex on one line; an empty chunk has none. -/
def chunkLines (bytes : Bytes) : List Bytes := if bytes.isEmpty then [] else [hexEncode bytes]

theorem spells_chunk (size : Nat) : Spells (chunkGrammar size) fun bytes used =>
    bytes.length = size ∧ used = chunkLines bytes := by
  by_cases none : size = 0
  · subst none
    refine (spells_pure ([] : Bytes)).congr fun bytes used => ?_
    constructor
    · rintro ⟨rfl, rfl⟩
      exact ⟨rfl, rfl⟩
    · rintro ⟨empty, rfl⟩
      obtain rfl := List.length_eq_zero_iff.mp empty
      exact ⟨rfl, rfl⟩
  · have unfolded : chunkGrammar size = token fun line => (hexDecode line size).filter (·.length = size) := if_neg none
    rw [unfolded]
    refine spells_token.congr fun bytes used => ?_
    constructor
    · rintro ⟨text, read, rfl⟩
      obtain ⟨decoded, length⟩ := Option.filter_eq_some_iff.mp read
      obtain ⟨-, rfl⟩ := hexDecode_spelled.mp decoded
      have whole : bytes.length = size := of_decide_eq_true length
      refine ⟨whole, ?_⟩
      cases bytes with
      | nil => exact absurd whole.symm none
      | cons byte rest => rfl
    · rintro ⟨rfl, rfl⟩
      cases bytes with
      | nil => exact absurd rfl none
      | cons byte rest =>
        refine ⟨_, Option.filter_eq_some_iff.mpr ⟨hexDecode_spelled.mpr ⟨le_rfl, rfl⟩, ?_⟩, rfl⟩
        exact decide_eq_true rfl

def logHeaderFields (head : Bool × UInt64 × UInt64) : List Bytes :=
  [ascii (if head.1 then "end" else "more"), decimal head.2.1.toNat, decimal head.2.2.toNat]

theorem logHeaderFields_printed (head : Bool × UInt64 × UInt64) : ∀ field ∈ logHeaderFields head, Printed field := by
  intro field member
  simp only [logHeaderFields, List.mem_cons, List.not_mem_nil, or_false] at member
  rcases member with rfl | rfl | rfl
  · exact printed_complete _
  · exact printed_decimal _
  · exact printed_decimal _

theorem spells_logHeader : Spells (record (ascii "ok") readLogHeader) fun head used =>
    True ∧ used = [header (logHeaderFields head)] := by
  refine spells_exact (by decide) (fun found head _ => ?_)
    fun head _ field member => (logHeaderFields_printed head field member).isWord
  obtain ⟨complete, offset, size⟩ := head
  constructor
  · intro read
    unfold readLogHeader at read
    split at read
    · simp only [Option.bind_eq_bind, Option.bind_eq_some_iff, readComplete_spelled, parseNumber_spelled, pure,
        Option.some.injEq, Prod.mk.injEq] at read
      obtain ⟨_, rfl, _, rfl, _, rfl, rfl, rfl, rfl⟩ := read
      exact ⟨trivial, rfl⟩
    · cases read
  · rintro ⟨-, rfl⟩
    simp only [logHeaderFields, readLogHeader, Option.bind_eq_bind, Option.bind_eq_some_iff, readComplete_spelled,
      parseNumber_spelled, pure, Option.some.injEq]
    exact ⟨complete, rfl, offset, rfl, size, rfl, rfl⟩

/-- The header of a chunk and its bytes. -/
def logLines (chunk : CiLogChunk) : List Bytes := header (logFields chunk) :: chunkLines chunk.bytes

/-- A chunk of the offset that was asked for. -/
structure GoodChunk (requested_offset : UInt64) (chunk : CiLogChunk) : Prop where
  offset : chunk.offset = requested_offset
  short : chunk.bytes.length ≤ kMaximumControlLogChunkBytes

theorem spells_log (requested_offset : UInt64) : Spells (logGrammar requested_offset) fun chunk used =>
    GoodChunk requested_offset chunk ∧ used = logLines chunk := by
  refine (spells_bind spells_logHeader fun head => spells_checked (spells_checked
    (spells_map (spells_chunk head.2.2.toNat) _))).congr fun chunk used => ?_
  constructor
  · rintro ⟨⟨complete, offset, size⟩, _, back, ⟨-, rfl⟩, ⟨requested, few, bytes, ⟨length, rfl⟩, rfl⟩, rfl⟩
    refine ⟨⟨of_decide_eq_true requested, ?_⟩, ?_⟩
    · change bytes.length ≤ _
      rw [length]
      exact of_decide_eq_true few
    · rw [logLines, logFields, logHeaderFields, ← length]
      rfl
  · rintro ⟨good, rfl⟩
    have size := count_of good.short (by decide)
    refine ⟨(chunk.complete, chunk.offset, .ofNat chunk.bytes.length), _, chunkLines chunk.bytes, ⟨trivial, rfl⟩,
      ⟨decide_eq_true good.offset, ?_, chunk.bytes, ⟨size.symm, rfl⟩, rfl⟩, ?_⟩
    · rw [size]
      exact decide_eq_true good.short
    · rw [logLines, logFields, logHeaderFields, size]
      rfl

theorem logLines_clean {requested_offset : UInt64} {chunk : CiLogChunk} (good : GoodChunk requested_offset chunk) :
    ∀ line ∈ logLines chunk, CleanLine line := by
  intro line member
  rcases List.mem_cons.mp member with rfl | inside
  · have size := count_of good.short (by decide)
    have printed := logHeaderFields_printed (chunk.complete, chunk.offset, .ofNat chunk.bytes.length)
    rw [logHeaderFields, size] at printed
    exact header_clean printed
  · unfold chunkLines at inside
    split at inside
    · cases inside
    · rw [List.mem_singleton.mp inside]
      have lone : CleanLine (unwords [hexEncode chunk.bytes]) := by
        refine unwords_clean fun word member => ?_
        rw [List.mem_singleton.mp member]
        exact hexEncode_printed chunk.bytes
      simpa [unwords] using lone

theorem log_short {chunk : CiLogChunk} (small : chunk.bytes.length ≤ kMaximumControlLogChunkBytes) :
    (framed (logLines chunk)).length ≤ kMaximumControlResponseBytes := by
  have offset := decimal_short chunk.offset.toNat_lt
  have size := decimal_short (Nat.lt_of_le_of_lt small (by decide))
  have body : (framed (chunkLines chunk.bytes)).length ≤ 2 * chunk.bytes.length + 1 := by
    unfold chunkLines
    split <;> simp
  have head : (framed [header (logFields chunk)]).length
      ≤ (decimal chunk.offset.toNat).length + (decimal chunk.bytes.length).length + 10 := by
    cases state : chunk.complete
    · simp [header, unwords, logFields, ascii, state]
      omega
    · simp [header, unwords, logFields, ascii, state]
      omega
  have whole : (framed (logLines chunk)).length
      = (framed [header (logFields chunk)]).length + (framed (chunkLines chunk.bytes)).length := by
    rw [← List.length_append, ← framed_append]
    rfl
  rw [kMaximumControlLogChunkBytes] at small
  rw [whole, kMaximumControlResponseBytes]
  omega

/-- A chunk is written exactly when it is not too long. -/
theorem formatCiLog_exact {chunk : CiLogChunk} {response : Bytes} : formatCiLogControlResponse chunk = some response
    ↔ chunk.bytes.length ≤ kMaximumControlLogChunkBytes ∧ response = framed (logLines chunk) := by
  unfold formatCiLogControlResponse
  constructor
  · intro written
    split at written
    · cases written
    · rename_i small
      exact ⟨Nat.not_lt.mp small, (Option.some.inj written).symm⟩
  · rintro ⟨small, rfl⟩
    rw [if_neg (Nat.not_lt.mpr small)]
    rfl

/-- A chunk within the limit is parsed exactly at its own offset. -/
theorem log_round_trip {chunk : CiLogChunk} {response : Bytes} {requested_offset : UInt64} :
    parseCiLogControlResponse response requested_offset = some chunk
      ↔ chunk.offset = requested_offset ∧ formatCiLogControlResponse chunk = some response := by
  have read : parseResponse (logGrammar requested_offset) response = some chunk ↔ GoodChunk requested_offset chunk
      ∧ response = framed (logLines chunk) ∧ response.length ≤ kMaximumControlResponseBytes :=
    parseResponse_exact (spells_log requested_offset) (fun _ => List.cons_ne_nil _ _) fun _ good => logLines_clean good
  rw [parseCiLogControlResponse, read, formatCiLog_exact]
  constructor
  · rintro ⟨good, whole, -⟩
    exact ⟨good.offset, good.short, whole⟩
  · rintro ⟨offset, small, rfl⟩
    exact ⟨⟨offset, small⟩, rfl, log_short small⟩

end CkGit.Responses
