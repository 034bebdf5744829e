import CkGit.Base.Grammar
import CkGit.Base.Spelling
import CkGit.Ci.RunRecord

/-!
The CI control responses behind `ckgit ci` (src/common/ci_control.cpp): ci-status,
ci-run, ci-jobs, ci-log, ci-placement and ci-execution, each with its formatter
and its parser. What an error says is left out. The artifacts of a run stand
beside its record.
-/
namespace CkGit.Responses
open CkGit.Base CkGit.Base.Grammar CkGit.Ci

def kMaximumRefBytes : Nat := 512
def kMaximumStepNameBytes : Nat := 256
def kMaximumNoteBytes : Nat := 256
def kMaximumProjects : Nat := 65536
def kMaximumArtifacts : Nat := 4096
def kMaximumControlResponseBytes : Nat := 256 * 1024
def kMaximumControlCiRuns : Nat := 64
def kMaximumControlLogChunkBytes : Nat := 112 * 1024
def kCiPrimaryRunnerName : Bytes := ascii "primary"

def dash : Bytes := ascii "-"

/-- Empty text is sent as "-". -/
def encodeText (text : Bytes) : Bytes := if text.isEmpty then dash else hexEncode text

def decodeText (field : Bytes) (maximum_bytes : Nat) : Option Bytes :=
  if field = dash then some []
  else (hexDecode field maximum_bytes).filter (!·.isEmpty)

def parseNumber (field : Bytes) : Option UInt64 :=
  if field.length > 1 ∧ field.head? = some zero then none
  else (parseDecimal (2 ^ 64 - 1) field).map .ofNat

def parseFlag (field : Bytes) : Option Bool :=
  if field = ascii "0" then some false else if field = ascii "1" then some true else none

/-- std::from_chars of an int. -/
def parseExitCode (field : Bytes) : Option Int32 :=
  (parseDecimalInt (2 ^ 31) (2 ^ 31 - 1) field).map .ofInt

def orDash (text : Bytes) : Bytes := if text.isEmpty then dash else text

def isLineByte (byte : UInt8) : Bool := 0x20 ≤ byte && byte ≤ 0x7e

def responseLines (response : Bytes) : Option (List Bytes) :=
  if response.isEmpty || response.length > kMaximumControlResponseBytes
      || response.any fun byte => byte != newline && !isLineByte byte then none
  else frame response

/-- A response that the grammar reads to its end. -/
def parseResponse {α : Type} (grammar : Grammar α) (response : Bytes) : Option α :=
  (responseLines response).bind fun lines =>
    match grammar lines with
    | some (a, []) => some a
    | _ => none

/-- Appends a line unless the response would exceed its bound. -/
def append (response line : Bytes) : Option Bytes :=
  if response.length + (line.length + 1) > kMaximumControlResponseBytes then none
  else some (response ++ line ++ [newline])

def header (fields : List Bytes) : Bytes := unwords (ascii "ok" :: fields)

structure CiRunSummary where
  run : CiRunRecord
  completed_steps : Nat

def representable (run : CiRunRecord) : Bool :=
  isValidCiId run.run_id && isValidObjectId run.commit_id && run.ref.length ≤ kMaximumRefBytes
    && run.detail.length ≤ kMaximumCiDetailBytes && run.steps.length ≤ kMaximumCiSteps

def runFields (run : CiRunRecord) (completed_steps : Nat) : List Bytes :=
  [run.run_id, ciRunStatusName run.status, decimal run.started_epoch_seconds.toNat,
    decimal run.finished_epoch_seconds.toNat, decimal run.heartbeat_epoch_seconds.toNat, decimal completed_steps,
    run.commit_id, encodeText run.ref]

def runLine (run : CiRunRecord) (completed_steps : Nat) : Bytes :=
  unwords (ascii "run" :: runFields run completed_steps)

def readRun (project_name : Bytes) (fields : List Bytes) : Option CiRunSummary :=
  match fields with
  | [run_id, status, started, finished, heartbeat, completed, commit_id, ref] => do
    let status ← ciRunStatusFromName status
    if !isValidCiId run_id then none
    let started_epoch_seconds ← parseNumber started
    let finished_epoch_seconds ← parseNumber finished
    let heartbeat_epoch_seconds ← parseNumber heartbeat
    let completed ← parseNumber completed
    if completed.toNat > kMaximumCiSteps then none
    if !isValidObjectId commit_id then none
    let ref ← decodeText ref kMaximumRefBytes
    return { completed_steps := completed.toNat
             run := { run_id, project_name, ref, commit_id, status, started_epoch_seconds, finished_epoch_seconds
                      heartbeat_epoch_seconds } }
  | _ => none

def summarizeCiRun (run : CiRunRecord) : CiRunSummary :=
  { completed_steps := run.steps.length
    run := { run_id := run.run_id, project_name := run.project_name, ref := run.ref, commit_id := run.commit_id
             status := run.status, started_epoch_seconds := run.started_epoch_seconds
             finished_epoch_seconds := run.finished_epoch_seconds
             heartbeat_epoch_seconds := run.heartbeat_epoch_seconds } }

structure CiProjectStatus where
  project_name : Bytes
  ci_enabled : Bool
  runs : List CiRunSummary

structure CiStatusReport where
  server_epoch_seconds : UInt64
  projects : List CiProjectStatus

def projectFields (project : CiProjectStatus) : List Bytes :=
  [project.project_name, ascii (if project.ci_enabled then "enabled" else "disabled"), decimal project.runs.length]

def appendRun (response : Bytes) (summary : CiRunSummary) : Option Bytes :=
  if representable summary.run then append response (runLine summary.run summary.completed_steps) else none

def appendProject (response : Bytes) (project : CiProjectStatus) : Option Bytes := do
  if isValidProjectName project.project_name && project.runs.length ≤ kMaximumControlCiRuns then
    project.runs.foldlM appendRun (← append response (unwords (ascii "project" :: projectFields project)))
  else none

def formatCiStatusControlResponse (report : CiStatusReport) : Option Bytes :=
  report.projects.foldlM appendProject
    (framed [header [decimal report.server_epoch_seconds.toNat, decimal report.projects.length]])

def readHeader (fields : List Bytes) : Option (UInt64 × UInt64) :=
  match fields with
  | [first, second] => do return (← parseNumber first, ← parseNumber second)
  | _ => none

def readEnabled (field : Bytes) : Option Bool :=
  if field = ascii "enabled" then some true else if field = ascii "disabled" then some false else none

/-- The name, whether CI is enabled, and how many runs follow. -/
def readProject (fields : List Bytes) : Option (Bytes × Bool × UInt64) :=
  match fields with
  | [project_name, enabled, runs] => do
    if !isValidProjectName project_name then none
    let enabled ← readEnabled enabled
    return (project_name, enabled, ← parseNumber runs)
  | _ => none

/-- Run ids sort chronologically, and the listing is newest first. -/
def newest (seen : List CiRunSummary) (next : CiRunSummary) : Bool :=
  match seen.getLast? with
  | some last => next.run.run_id < last.run.run_id
  | none => true

def nextRun (project_name : Bytes) (seen : List CiRunSummary) : Grammar CiRunSummary := do
  let summary ← record (ascii "run") (readRun project_name)
  check (newest seen summary)
  return summary

/-- The project after its own line. -/
def projectAfter (seen : List CiProjectStatus) (line : Bytes × Bool × UInt64) : Grammar CiProjectStatus := do
  check (!seen.any (·.project_name == line.1))
  check (line.2.2.toNat ≤ kMaximumControlCiRuns)
  let runs ← collect line.2.2.toNat (nextRun line.1) []
  return { project_name := line.1, ci_enabled := line.2.1, runs }

def nextProject (seen : List CiProjectStatus) : Grammar CiProjectStatus := do
  projectAfter seen (← record (ascii "project") readProject)

/-- The report after its header, the server's time and the number of projects. -/
def statusAfter (header : UInt64 × UInt64) : Grammar CiStatusReport := do
  check (header.2.toNat ≤ kMaximumProjects)
  let projects ← collect header.2.toNat nextProject []
  return { server_epoch_seconds := header.1, projects }

def statusGrammar : Grammar CiStatusReport := do statusAfter (← record (ascii "ok") readHeader)

def parseCiStatusControlResponse (response : Bytes) : Option CiStatusReport := parseResponse statusGrammar response

structure CiArtifactRecord where
  name : Bytes
  bytes : UInt64
  sha256 : Bytes
  created_epoch_seconds : UInt64
  expires_epoch_seconds : UInt64
  note : Bytes

structure CiRunReport where
  server_epoch_seconds : UInt64
  run : CiRunRecord
  artifacts : List CiArtifactRecord

structure CiRunPlacement where
  runner : Bytes
  attempt : UInt32

def ciPlacementNote (placement : CiRunPlacement) : Bytes :=
  if (placement.runner.isEmpty || placement.runner == kCiPrimaryRunnerName) && placement.attempt ≤ 1 then []
  else
    let at_runner := if placement.runner.isEmpty then ascii "queued" else ascii "on " ++ placement.runner
    if placement.attempt > 1 then at_runner ++ ascii ", attempt " ++ decimal placement.attempt.toNat else at_runner

def notedDetail (detail note : Bytes) : Bytes :=
  if detail.isEmpty then note else detail ++ (ascii " (" ++ note ++ ascii ")")

/-- The detail with the note of the placement folded in. -/
def foldedDetail (run : CiRunRecord) : Bytes :=
  let note := ciPlacementNote ⟨run.runner, run.attempt⟩
  if note.isEmpty then run.detail else (notedDetail run.detail note).take kMaximumCiDetailBytes

def strippedCiPlacementDetail (detail : Bytes) (placement : CiRunPlacement) : Bytes :=
  let note := ciPlacementNote placement
  if note.isEmpty then detail
  else if detail = note then []
  else
    let suffix := ascii " (" ++ note ++ ascii ")"
    if detail.length > suffix.length && suffix.isSuffixOf detail then detail.take (detail.length - suffix.length)
    else detail

def stepFields (index : Nat) (step : CiStepResult) : List Bytes :=
  [decimal index, decimalInt step.exit_code.toInt, flag step.timed_out, flag step.output_truncated, encodeText step.name]

def appendStep (response : Bytes) (step : CiStepResult × Nat) : Option Bytes :=
  if step.1.name.length ≤ kMaximumStepNameBytes then append response (unwords (ascii "step" :: stepFields step.2 step.1))
  else none

def artifactFields (artifact : CiArtifactRecord) : List Bytes :=
  [artifact.name, decimal artifact.bytes.toNat, orDash artifact.sha256, decimal artifact.created_epoch_seconds.toNat,
    decimal artifact.expires_epoch_seconds.toNat, encodeText artifact.note]

def representableArtifact (artifact : CiArtifactRecord) : Bool :=
  isValidCiArtifactName artifact.name && (artifact.sha256.isEmpty || isValidSha256Hex artifact.sha256)
    && artifact.note.length ≤ kMaximumNoteBytes

def appendArtifact (response : Bytes) (artifact : CiArtifactRecord) : Option Bytes :=
  if representableArtifact artifact then append response (unwords (ascii "artifact" :: artifactFields artifact)) else none

def formatCiRunControlResponse (report : CiRunReport) : Option Bytes := do
  let response := framed [header [decimal report.server_epoch_seconds.toNat, decimal report.artifacts.length]]
  let response ← appendRun response ⟨report.run, report.run.steps.length⟩
  let response ← append response (unwords [ascii "detail", encodeText (foldedDetail report.run)])
  let response ← report.run.steps.zipIdx.foldlM appendStep response
  report.artifacts.foldlM appendArtifact response

def readDetail (fields : List Bytes) : Option Bytes :=
  match fields with
  | [detail] => decodeText detail kMaximumCiDetailBytes
  | _ => none

def readStep (index : Nat) (fields : List Bytes) : Option CiStepResult :=
  match fields with
  | [number, exit_code, timed_out, output_truncated, name] => do
    let number ← parseNumber number
    if number.toNat ≠ index then none
    let exit_code ← parseExitCode exit_code
    let timed_out ← parseFlag timed_out
    let output_truncated ← parseFlag output_truncated
    let name ← decodeText name kMaximumStepNameBytes
    return { name, exit_code, timed_out, output_truncated }
  | _ => none

def readSha256 (field : Bytes) : Option Bytes :=
  if field = dash then some [] else if isValidSha256Hex field then some field else none

def readArtifact (fields : List Bytes) : Option CiArtifactRecord :=
  match fields with
  | [name, bytes, sha256, created, expires, note] => do
    if !isValidCiArtifactName name then none
    let bytes ← parseNumber bytes
    let sha256 ← readSha256 sha256
    let created_epoch_seconds ← parseNumber created
    let expires_epoch_seconds ← parseNumber expires
    let note ← decodeText note kMaximumNoteBytes
    return { name, bytes, sha256, created_epoch_seconds, expires_epoch_seconds, note }
  | _ => none

def nextArtifact (seen : List CiArtifactRecord) : Grammar CiArtifactRecord := do
  let artifact ← record (ascii "artifact") readArtifact
  check (!seen.any (·.name == artifact.name))
  return artifact

def nextStep (seen : List CiStepResult) : Grammar CiStepResult := record (ascii "step") (readStep seen.length)

/-- The report after its header, the server's time and the number of artifacts. -/
def runAfter (project_name : Bytes) (header : UInt64 × UInt64) : Grammar CiRunReport := do
  check (header.2.toNat ≤ kMaximumArtifacts)
  let summary ← record (ascii "run") (readRun project_name)
  let detail ← record (ascii "detail") readDetail
  let steps ← collect summary.completed_steps nextStep []
  let artifacts ← collect header.2.toNat nextArtifact []
  return { server_epoch_seconds := header.1, run := { summary.run with detail, steps }, artifacts }

def runGrammar (project_name : Bytes) : Grammar CiRunReport := do
  runAfter project_name (← record (ascii "ok") readHeader)

def parseCiRunControlResponse (response project_name : Bytes) : Option CiRunReport :=
  parseResponse (runGrammar project_name) response

def formatCiExecutionControlResponse (execution : Option CiExecutionReport) : Bytes :=
  ascii "ok " ++ execution.elim dash formatCiExecutionReport ++ [newline]

/-- None is a response that is not accepted. -/
def parseCiExecutionControlResponse (response : Bytes) : Option (Option CiExecutionReport) :=
  if response = ascii "ok -" ++ [newline] then some none
  else if (ascii "ok ").isPrefixOf response && response.getLast? == some newline then
    match parseCiExecutionReport ((response.drop 3).take (response.length - 4)) with
    | .ok report => some (some report)
    | .error _ => none
  else none

def placementFields (placement : CiRunPlacement) : List Bytes :=
  [orDash placement.runner, decimal placement.attempt.toNat]

def formatCiPlacementControlResponse (placement : CiRunPlacement) : Option Bytes :=
  if (!placement.runner.isEmpty && !isValidClientId placement.runner) || placement.attempt = 0 then none
  else some (framed [header (placementFields placement)])

def readRunner (field : Bytes) : Option Bytes :=
  if field = dash then some [] else if isValidClientId field then some field else none

def readAttempt (field : Bytes) : Option UInt32 := do
  let attempt ← parseNumber field
  if attempt.toNat = 0 ∨ attempt.toNat > 2 ^ 32 - 1 then none
  return .ofNat attempt.toNat

def readPlacement (fields : List Bytes) : Option CiRunPlacement :=
  match fields with
  | [runner, attempt] => do return { runner := ← readRunner runner, attempt := ← readAttempt attempt }
  | _ => none

def parseCiPlacementControlResponse (response : Bytes) : Option CiRunPlacement :=
  parseResponse (record (ascii "ok") readPlacement) response

structure CiWorkflowJobSummary where
  name : Bytes
  run_id : Bytes
  status : CiRunStatus
  placement : CiRunPlacement
  runs_on : List Bytes

structure CiJobsReport where
  parent_run_id : Bytes
  jobs : List CiWorkflowJobSummary

def representableJob (parent_run_id : Bytes) (job : CiWorkflowJobSummary) : Bool :=
  isValidCiArtifactName job.name && isValidCiId job.run_id && job.run_id != parent_run_id
    && job.runs_on.length ≤ kMaximumCiLabels && job.runs_on.all isValidCiLabel
    && (job.placement.runner.isEmpty || isValidClientId job.placement.runner) && job.placement.attempt != 0

/-- The labels in order, each once. -/
def sortedLabels (runs_on : List Bytes) : Bytes :=
  if runs_on.isEmpty then dash
  else ((parseCiLabelList (formatCiLabelList runs_on)).map formatCiLabelList).getD []

def jobFields (job : CiWorkflowJobSummary) : List Bytes :=
  [job.name, job.run_id, ciRunStatusName job.status, orDash job.placement.runner,
    decimal job.placement.attempt.toNat, sortedLabels job.runs_on]

def appendJob (parent_run_id : Bytes) (response : Bytes) (job : CiWorkflowJobSummary) : Option Bytes :=
  if representableJob parent_run_id job then append response (unwords (ascii "job" :: jobFields job)) else none

def formatCiJobsControlResponse (report : CiJobsReport) : Option Bytes :=
  if isValidCiId report.parent_run_id && report.jobs.length ≤ kMaximumCiJobs
      && decide (report.jobs.map (·.name)).Nodup && decide (report.jobs.map (·.run_id)).Nodup then
    report.jobs.foldlM (appendJob report.parent_run_id)
      (framed [header [report.parent_run_id, decimal report.jobs.length]])
  else none

def readLabels (field : Bytes) : Option (List Bytes) := do
  let labels ← parseCiLabelList (if field = dash then [] else field)
  if field ≠ dash ∧ formatCiLabelList labels ≠ field then none
  return labels

def readJob (fields : List Bytes) : Option CiWorkflowJobSummary :=
  match fields with
  | [name, run_id, status, runner, attempt, labels] => do
    let status ← ciRunStatusFromName status
    let runs_on ← readLabels labels
    let attempt ← readAttempt attempt
    return { name, run_id, status, placement := { runner := if runner = dash then [] else runner, attempt }, runs_on }
  | _ => none

def readJobsHeader (fields : List Bytes) : Option (Bytes × UInt64) :=
  match fields with
  | [parent_run_id, count] => do return (parent_run_id, ← parseNumber count)
  | _ => none

/-- The report after its header, the parent run and the number of jobs. -/
def jobsAfter (header : Bytes × UInt64) : Grammar CiJobsReport := do
  check (header.2.toNat ≤ kMaximumCiJobs)
  let jobs ← collect header.2.toNat (fun _ => record (ascii "job") readJob) []
  return { parent_run_id := header.1, jobs }

def jobsGrammar : Grammar CiJobsReport := do jobsAfter (← record (ascii "ok") readJobsHeader)

/-- The identity and uniqueness checks are those of the formatter. -/
def parseCiJobsControlResponse (response : Bytes) : Option CiJobsReport :=
  (parseResponse jobsGrammar response).filter fun report => (formatCiJobsControlResponse report).isSome

structure CiLogChunk where
  offset : UInt64
  bytes : Bytes
  complete : Bool

def logFields (chunk : CiLogChunk) : List Bytes :=
  [ascii (if chunk.complete then "end" else "more"), decimal chunk.offset.toNat, decimal chunk.bytes.length]

def formatCiLogControlResponse (chunk : CiLogChunk) : Option Bytes :=
  if chunk.bytes.length > kMaximumControlLogChunkBytes then none
  else some (framed (header (logFields chunk) :: if chunk.bytes.isEmpty then [] else [hexEncode chunk.bytes]))

def readComplete (field : Bytes) : Option Bool :=
  if field = ascii "more" then some false else if field = ascii "end" then some true else none

def readLogHeader (fields : List Bytes) : Option (Bool × UInt64 × UInt64) :=
  match fields with
  | [state, offset, size] => do return (← readComplete state, ← parseNumber offset, ← parseNumber size)
  | _ => none

/-- The bytes of a chunk of this size. -/
def chunkGrammar (size : Nat) : Grammar Bytes :=
  if size = 0 then return []
  else token fun line => (hexDecode line size).filter (·.length = size)

/-- The chunk after its header: whether it is the last one, its offset and its size. -/
def logAfter (requested_offset : UInt64) (header : Bool × UInt64 × UInt64) : Grammar CiLogChunk := do
  check (header.2.1 = requested_offset)
  check (header.2.2.toNat ≤ kMaximumControlLogChunkBytes)
  let bytes ← chunkGrammar header.2.2.toNat
  return { offset := header.2.1, bytes, complete := header.1 }

def logGrammar (requested_offset : UInt64) : Grammar CiLogChunk := do
  logAfter requested_offset (← record (ascii "ok") readLogHeader)

def parseCiLogControlResponse (response : Bytes) (requested_offset : UInt64) : Option CiLogChunk :=
  parseResponse (logGrammar requested_offset) response

end CkGit.Responses
