import CkGit.Base.Script
import CkGit.Ci.FinishReport
import CkGit.Vm.Frames
import CkGit.Workflow.Model

/-!
The host's relay of a guest's results: relayCiVmResults
(src/ci-vm-host-macos/result_relay.cpp) with CiVmOutputGuard
(src/common/ci_vm_protocol.cpp). Every call out of the relay is an operation
with a reply of its own, which may be an exception: frames come from a hostile
guest, answers from the host's sink, and local files may fail. The rounds are
the number of frames the relay takes up; a run that goes on is one with more.
-/
namespace CkGit.Vm
open CkGit.Base CkGit.Ci CkGit.Workflow

def kMaximumPagesSiteBytes : Nat := 8 * 2 ^ 30

/-- What the relay reads of a prepared job. -/
structure CiPreparedJob where
  job : CiJobRequest
  workflow : CiWorkflow
  is_release : Bool
  is_default_branch : Bool

structure CiRemotePolicy where
  max_log_bytes : UInt64
  artifact_max_bytes : UInt64

structure CiVmOutputGuard where
  assignment : CiPreparedJob
  max_log : UInt64
  max_artifact : UInt64
  logs : List UInt64
  artifacts : List Bool
  artifact_remaining : UInt64 := 0
  artifact_open : Bool := false

namespace CiVmOutputGuard

def create (assignment : CiPreparedJob) (policy : CiRemotePolicy) : Except String CiVmOutputGuard := do
  let jobs := assignment.workflow.jobs
  rejectIf (jobs.length > kMaximumCiJobs) "too many VM jobs"
  rejectIf (jobs.any fun job => job.steps.length > kMaximumCiStepsPerJob) "too many VM steps"
  return { assignment, max_log := policy.max_log_bytes, max_artifact := policy.artifact_max_bytes
           logs := jobs.flatMap fun job => List.replicate job.steps.length 0
           artifacts := List.replicate jobs.length false }

def log (guard : CiVmOutputGuard) (step : Nat) (bytes : UInt64) : Except String CiVmOutputGuard :=
  match guard.logs[step]? with
  | none => .error "VM log exceeds assigned step or limit"
  | some held =>
    if bytes.toNat > kCiVmChunkPayloadMax ∨ bytes > guard.max_log - held then
      .error "VM log exceeds assigned step or limit"
    else .ok { guard with logs := guard.logs.set step (held + bytes) }

def declares (guard : CiVmOutputGuard) (job : Nat) : Option CiArtifact :=
  guard.assignment.workflow.jobs[job]?.bind (·.artifact)

def beginArtifact (guard : CiVmOutputGuard) (job : Nat) (declared_bytes : UInt64) :
    Except String (CiArtifact × CiVmOutputGuard) :=
  match guard.artifacts[job]?, guard.declares job with
  | some false, some artifact =>
    if guard.artifact_open ∨ declared_bytes > guard.max_artifact then
      .error "invalid or oversized VM artifact"
    else .ok (artifact, { guard with artifacts := guard.artifacts.set job true
                                     artifact_remaining := declared_bytes, artifact_open := true })
  | _, _ => .error "invalid or oversized VM artifact"

def artifactChunk (guard : CiVmOutputGuard) (bytes : UInt64) : Except String CiVmOutputGuard :=
  if ¬ guard.artifact_open ∨ bytes = 0 ∨ bytes.toNat > kCiVmChunkPayloadMax
      ∨ bytes > guard.artifact_remaining then
    .error "invalid VM artifact chunk"
  else .ok { guard with artifact_remaining := guard.artifact_remaining - bytes }

def endArtifact (guard : CiVmOutputGuard) : Except String CiVmOutputGuard :=
  if ¬ guard.artifact_open ∨ guard.artifact_remaining ≠ 0 then .error "incomplete VM artifact"
  else .ok { guard with artifact_open := false }

end CiVmOutputGuard

/-- The canonical decimals only. -/
def eventNumber (text : Bytes) : Except String Nat :=
  match parseDecimal (2 ^ 64 - 1) text with
  | some n => if decimal n = text then .ok n else .error "invalid VM event number"
  | none => .error "invalid VM event number"

def eventInt (text : Bytes) : Except String Int32 :=
  match parseDecimalInt (2 ^ 31) (2 ^ 31 - 1) text with
  | some n => if decimalInt n = text then .ok (.ofInt n) else .error "invalid VM event number"
  | none => .error "invalid VM event number"

def fields (value : Bytes) : Except String (List Bytes) :=
  if value.isEmpty then .ok []
  else if (value.splitOn space).any (·.isEmpty) then .error "invalid VM event fields"
  else .ok (value.splitOn space)

def unhex (value : Bytes) (cap : Nat) : Except String Bytes :=
  match fromHexOrDash value cap with
  | some text => if hexOrDash text = value then .ok text else .error "invalid VM event text"
  | none => .error "invalid VM event text"

/-- A frame as the decoder gives it. -/
abbrev ReceivedFrame := { frame : CiVmFrame // frame.payload.length ≤ limit frame.type }

/-- The calls on CiResultSink that carry something; a bundle is the bytes of its file. -/
inductive SinkCall where
  | runStarted (record : CiRunRecord)
  | stepStarted (record : CiRunRecord) (index : Nat)
  | appendLog (index : Nat) (bytes : Bytes)
  | stepFinished (record : CiRunRecord) (index : Nat)
  | heartbeat (record : CiRunRecord)
  | tick
  | progress (record : CiRunRecord)
  | putArtifact (artifact : CiArtifact) (bundle : Option Bytes) (note : Bytes) (release : Bool)
  | putPagesSite
  deriving DecidableEq

inductive RelayOp : Type → Type where
  /-- How often the channel asks whether to go on while it waits. -/
  | waits : RelayOp (Except String Nat)
  | receive : RelayOp (Except String ReceivedFrame)
  | send (frame : CiVmFrame) : RelayOp (Except String Unit)
  | call (call : SinkCall) : RelayOp (Except String Unit)
  | leaseLost : RelayOp (Except String Bool)
  | cancelRequested : RelayOp (Except String Bool)
  /-- Work on local files, the extraction of a site among it. -/
  | files : RelayOp (Except String Unit)

abbrev Relay := ExceptT String (Script RelayOp)

def ask {β : Type} (op : RelayOp (Except String β)) : Relay β := ExceptT.mk (Script.ask op)

def check {β : Type} (result : Except String β) : Relay β := ExceptT.mk (pure result)

/-- Asks the sink to go on, as often as the channel does. -/
def keep (record : CiRunRecord) (times : Nat) : Relay Unit :=
  match times with
  | 0 => pure ()
  | times + 1 => do
    ask (.call (.heartbeat record))
    if ← ask .leaseLost then throw "VM channel cancelled"
    keep record times

def receive (record : CiRunRecord) : Relay ReceivedFrame := do
  keep record (← ask .waits)
  ask .receive

structure RelayState where
  record : CiRunRecord
  limits : CiVmOutputGuard
  outputs : List CiDeclaredOutput := []
  started : Bool := false
  active_step : Bool := false
  pages : Bool := false
  cancel_sent : Bool := false

def stepNames (assignment : CiPreparedJob) : List Bytes :=
  assignment.workflow.jobs.flatMap fun job =>
    job.steps.map fun step => if step.name.isEmpty then job.name else step.name

def CiRunRecord.ofAssignment (assignment : CiPreparedJob) : CiRunRecord :=
  { run_id := assignment.job.job_id, project_name := assignment.job.project_name
    ref := assignment.job.ref, commit_id := assignment.job.commit_id
    parent_run_id := assignment.job.parent_run_id, workflow_job := assignment.job.workflow_job
    attempt := assignment.job.attempt, status := .running }

/-- A step that neither failed nor timed out. -/
def passed (step : CiStepResult) : Bool := step.exit_code = 0 && !step.timed_out

/-- The last step there is passed. -/
def lastPassed (steps : List CiStepResult) : Bool := steps.getLast?.any passed

def ack (state : RelayState) : Relay RelayState := do
  ask (.call .tick)
  if ← ask .leaseLost then
    ask (.send ⟨.error, ascii "lease-lost"⟩)
    throw "VM job lease lost during acknowledgement"
  if ← ask .cancelRequested then
    ask (.send ⟨.cancel, []⟩)
    return { state with cancel_sent := true }
  ask (.send ⟨.event, ascii "ok"⟩)
  return state

/-- The chunks of a bundle until nothing remains; each is not empty, so as many rounds as bytes
are enough. -/
def artifactChunks (record : CiRunRecord) (rounds : Nat) (remaining : UInt64) (limits : CiVmOutputGuard)
    (bundle : Bytes) : Relay (CiVmOutputGuard × Bytes) :=
  match rounds with
  | 0 => pure (limits, bundle)
  | rounds + 1 =>
    if remaining = 0 then pure (limits, bundle)
    else do
      let chunk ← receive record
      check (rejectIf (chunk.val.type ≠ .chunk ∨ chunk.val.payload.isEmpty) "invalid VM artifact chunk")
      let size := UInt64.ofNat chunk.val.payload.length
      let limits ← check (limits.artifactChunk size)
      ask .files
      artifactChunks record rounds (remaining - size) limits (bundle ++ chunk.val.payload)

def pagesChunks (record : CiRunRecord) (rounds : Nat) (remaining : UInt64) : Relay Unit :=
  match rounds with
  | 0 => pure ()
  | rounds + 1 =>
    if remaining = 0 then pure ()
    else do
      let chunk ← receive record
      let size := UInt64.ofNat chunk.val.payload.length
      check (rejectIf (chunk.val.type ≠ .chunk ∨ chunk.val.payload.isEmpty ∨ size > remaining)
        "invalid VM Pages chunk")
      ask .files
      pagesChunks record rounds (remaining - size)

/-- The frame that ends a bundle. -/
def receiveEnd (record : CiRunRecord) (text : String) : Relay Unit := do
  let done ← receive record
  check (rejectIf (done.val.type ≠ .done ∨ ¬ done.val.payload.isEmpty) text)

section
variable (assignment : CiPreparedJob)

def unexpected {β : Type} : Relay β := throw "unexpected or out-of-order VM event"

def onStarted (state : RelayState) (epoch : Bytes) : Relay RelayState := do
  let epoch ← check (eventNumber epoch)
  check (rejectIf (epoch = 0) "invalid VM start time")
  let record := { state.record with started_epoch_seconds := .ofNat epoch }
  ask (.call (.runStarted record))
  ack { state with record, started := true }

def onStepStart (state : RelayState) (index : Bytes) : Relay RelayState := do
  let steps := state.record.steps
  if (← check (eventNumber index)) = steps.length ∧ steps.length < (stepNames assignment).length
      ∧ (steps.isEmpty ∨ lastPassed steps) then
    ask (.call (.stepStarted state.record steps.length))
    ack { state with active_step := true }
  else unexpected

def onLog (state : RelayState) (index : Bytes) : Relay RelayState := do
  let step := state.record.steps.length
  if (← check (eventNumber index)) = step then
    let chunk ← receive state.record
    check (rejectIf (chunk.val.type ≠ .chunk ∨ chunk.val.payload.isEmpty) "invalid VM log chunk")
    let limits ← check (state.limits.log step (.ofNat chunk.val.payload.length))
    ask (.call (.appendLog step chunk.val.payload))
    ack { state with limits }
  else unexpected

def onStepEnd (state : RelayState) (index exit timed_out truncated name : Bytes) : Relay RelayState := do
  let steps := state.record.steps
  let flag := fun field => field = ascii "0" ∨ field = ascii "1"
  if (← check (eventNumber index)) = steps.length ∧ flag timed_out ∧ flag truncated then
    let name ← check (unhex name kMaximumCiDetailBytes)
    let step : CiStepResult :=
      { name, exit_code := ← check (eventInt exit), timed_out := timed_out == ascii "1"
        output_truncated := truncated == ascii "1" }
    check (rejectIf ((stepNames assignment)[steps.length]? ≠ some name) "unexpected VM step name")
    let record := { state.record with steps := steps ++ [step] }
    ask (.call (.stepFinished record steps.length))
    ack { state with record, active_step := false }
  else unexpected

def onProgress (state : RelayState) (detail : Bytes) : Relay RelayState := do
  let record := { state.record with detail := ← check (unhex detail kMaximumCiDetailBytes) }
  ask (.call (.progress record))
  ack { state with record }

/-- The steps of a job and of the jobs before it. -/
def stepsUpTo (job : Nat) : Nat :=
  ((assignment.workflow.jobs.take (job + 1)).map fun job => job.steps.length).sum

def onArtifact (state : RelayState) (job size note : Bytes) : Relay RelayState := do
  let job ← check (eventNumber job)
  let size := UInt64.ofNat (← check (eventNumber size))
  let note ← check (unhex note kMaximumCiDetailBytes)
  let (artifact, limits) ← check (state.limits.beginArtifact job size)
  check (rejectIf (state.record.steps.length < stepsUpTo assignment job ∨ ¬ lastPassed state.record.steps)
    "VM artifact before successful job steps")
  check (rejectIf (¬ note.isEmpty ∧ size ≠ 0) "VM artifact note with data")
  let limits ←
    if note.isEmpty then do
      ask .files
      let (limits, bundle) ← artifactChunks state.record size.toNat size limits []
      receiveEnd state.record "invalid VM artifact end"
      ask .files
      let limits ← check limits.endArtifact
      ask (.call (.putArtifact artifact (some bundle) note assignment.is_release))
      ask .files
      pure limits
    else do
      let limits ← check limits.endArtifact
      ask (.call (.putArtifact artifact none note assignment.is_release))
      pure limits
  let output : CiDeclaredOutput :=
    { name := artifact.name, release := assignment.is_release, retention_days := artifact.retention_days, note }
  ack { state with limits, outputs := state.outputs ++ [output] }

def onPages (state : RelayState) (size : Bytes) : Relay RelayState := do
  let size ← check (eventNumber size)
  check (rejectIf (size > kMaximumPagesSiteBytes + 2 ^ 30) "VM Pages archive too large")
  ask .files
  pagesChunks state.record size (.ofNat size)
  receiveEnd state.record "invalid VM Pages end"
  ask .files
  -- The extraction asks whether to go on as well.
  keep state.record (← ask .waits)
  ask .files
  ask (.call .putPagesSite)
  ask .files
  ack { state with pages := true }

def onEvent (state : RelayState) (payload : Bytes) : Relay RelayState := do
  match ← check (fields payload) with
  | [] => throw "empty VM event"
  | [name] =>
    if name = ascii "heartbeat" ∧ state.started then
      ask (.call (.heartbeat state.record))
      ack state
    else if name = ascii "poll" ∧ state.started then
      ask (.call .tick)
      ack state
    else unexpected
  | [name, value] =>
    if name = ascii "started" ∧ ¬ state.started then onStarted state value
    else if name = ascii "step-start" ∧ state.started ∧ ¬ state.active_step then
      onStepStart assignment state value
    else if name = ascii "log" ∧ state.active_step then onLog state value
    else if name = ascii "progress" ∧ state.started then onProgress state value
    else if name = ascii "pages" ∧ state.started ∧ ¬ state.active_step ∧ ¬ state.pages
        ∧ assignment.is_default_branch ∧ ¬ assignment.is_release ∧ assignment.workflow.pages_path.isSome
        ∧ state.record.steps.length = (stepNames assignment).length ∧ lastPassed state.record.steps then
      onPages state value
    else unexpected
  | [name, job, size, note] =>
    if name = ascii "artifact" ∧ state.started ∧ ¬ state.active_step then
      onArtifact assignment state job size note
    else unexpected
  | [name, index, exit, timed_out, truncated, step] =>
    if name = ascii "step-end" ∧ state.active_step then
      onStepEnd assignment state index exit timed_out truncated step
    else unexpected
  | _ => unexpected

/-- The terminal report. -/
def onDone (state : RelayState) (payload : Bytes) : Relay CiRunRecord := do
  let report ← check (parseCiFinishReport payload)
  check (rejectIf (state.cancel_sent ∧ report.status ≠ .cancelled)
    "VM ignored cancellation in terminal report")
  check (rejectIf (state.active_step ∨ state.limits.artifact_open
    ∨ report.steps.length ≠ state.record.steps.length ∨ report.outputs.length ≠ state.outputs.length
    ∨ (state.started ∧ report.started_epoch_seconds ≠ state.record.started_epoch_seconds))
    "inconsistent VM terminal report")
  check (rejectIf (report.steps ≠ state.record.steps) "VM step report changed")
  check (rejectIf (report.outputs ≠ state.outputs) "VM output report changed")
  check (rejectIf (report.status = .success
    ∧ (¬ state.started ∨ state.record.steps.length ≠ (stepNames assignment).length))
    "incomplete VM success report")
  check (rejectIf (report.status = .success ∧ state.record.steps.any fun step => !passed step)
    "failed VM step reported as success")
  let record :=
    { state.record with started_epoch_seconds := report.started_epoch_seconds, status := report.status
                        detail := report.detail }
  let state ← ack { state with record }
  -- A cancellation in the last acknowledgement cannot amend the guest's frame.
  if state.cancel_sent ∧ record.status ≠ .cancelled then
    return { record with status := .cancelled, detail := ascii "cancelled before the VM result was committed" }
  return record

def relayRounds (rounds : Nat) (state : RelayState) : Relay (Option CiRunRecord) :=
  match rounds with
  | 0 => pure none
  | rounds + 1 => do
    let frame ← receive state.record
    match frame.val.type with
    | .error => throw "VM guest error"
    | .done => return some (← onDone assignment state frame.val.payload)
    | .event => relayRounds rounds (← onEvent assignment state frame.val.payload)
    | _ => throw "unexpected VM result frame"

def relayCiVmResults (policy : CiRemotePolicy) (rounds : Nat) : Relay (Option CiRunRecord) := do
  let limits ← check (CiVmOutputGuard.create assignment policy)
  relayRounds assignment rounds { record := CiRunRecord.ofAssignment assignment, limits }

end
end CkGit.Vm
