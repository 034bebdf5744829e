import CkGit.Workflow.Bounds
import CkGit.Ci.RecordSize

/-!
# Recording a workflow's runs

The run records the store writes for an accepted workflow, from the push that
queues it (enqueueCiWorkflow, src/common/ci_runner.cpp) over the progress
frames and the finish of each attempt (executeCiJob, src/common/ci_gateway.cpp)
to the summary of a distributed parent (src/common/ci_results.cpp), and when
all of them stay within the limits of a run record. A version 1 workflow keeps
the steps of every job in one record; a version 2 job has a record of its own.
-/
namespace CkGit.Workflow
open CkGit.Base CkGit.Ci

/-- A push to a CI-enabled project, and the ids its child jobs would get. -/
structure Push where
  job_id : Bytes
  project_name : Bytes
  ref : Bytes
  commit_id : Bytes
  client_id : Bytes
  queued_epoch_seconds : UInt64 := 0
  child_id : Bytes → Bytes
  valid : isValidCiId job_id ∧ isValidProjectName project_name ∧ isValidObjectId commit_id
    ∧ isValidClientId client_id
  children_valid : ∀ name, isValidCiId (child_id name) ∧ child_id name ≠ job_id

/-- The legacy job, or the parent of a distributed workflow. -/
def Push.parent (push : Push) (workflow : CiWorkflow) : CiJobRequest where
  job_id := push.job_id
  project_name := push.project_name
  ref := push.ref
  commit_id := push.commit_id
  client_id := push.client_id
  queued_epoch_seconds := push.queued_epoch_seconds
  runs_on := workflow.runs_on
  auto_cancel := workflow.auto_cancel

def Push.child (push : Push) (workflow : CiWorkflow) (job : CiJob) : CiJobRequest :=
  { push.parent workflow with
    job_id := push.child_id job.name
    parent_run_id := push.job_id
    workflow_job := job.name
    runs_on := job.runs_on
    needs := job.needs.map push.child_id }

/-- queuedRecord: a run nobody has started. -/
def queuedRecord (job : CiJobRequest) : CiRunRecord where
  run_id := job.job_id
  project_name := job.project_name
  ref := job.ref
  commit_id := job.commit_id
  parent_run_id := job.parent_run_id
  workflow_job := job.workflow_job
  attempt := job.attempt

def waitingText (runs_on : List Bytes) : Bytes :=
  if runs_on.isEmpty then [] else ascii "waiting for a runner labelled " ++ formatCiLabelList runs_on

/-- The record enqueueCiJob publishes for a job it has queued. -/
def previewRecord (request : CiJobRequest) : CiRunRecord :=
  { queuedRecord request with attempt := 1, detail := waitingText request.runs_on }

/-- The name each step is recorded under, in the order the steps run. -/
def stepNames (workflow : CiWorkflow) : List Bytes :=
  workflow.jobs.flatMap fun job =>
    job.steps.map fun step => if step.name.isEmpty then job.name else step.name

/-- What executeStep returns. -/
structure StepOutcome where
  exit_code : Int32 := 0
  timed_out : Bool := false
  truncated : Bool := false
  cancelled : Bool := false
  spawn_failed : Bool := false

def StepOutcome.stops (outcome : StepOutcome) : Bool :=
  outcome.cancelled || outcome.spawn_failed || outcome.timed_out || outcome.exit_code != 0

/-- The steps executeCiJob has recorded: it stops after one that did not
succeed, and may stop before any step (`outcomes` ends there). -/
def recordedSteps : List Bytes → List StepOutcome → List CiStepResult
  | name :: names, outcome :: outcomes =>
    { name, exit_code := outcome.exit_code, timed_out := outcome.timed_out,
      output_truncated := outcome.truncated }
      :: if outcome.stops then [] else recordedSteps names outcomes
  | _, _ => []

/-- What a record of an attempt says besides its steps: a stream frame and a
finish report carry these freely within the limits of the runner protocol. -/
structure Report where
  status : CiRunStatus
  started : UInt64 := 0
  finished : UInt64 := 0
  heartbeat : UInt64 := 0
  runner : Bytes := []
  attempt : UInt32 := 1
  detail : Bytes := []
  execution : Option CiExecutionReport := none
  runner_valid : runner = [] ∨ isValidClientId runner
  attempt_few : attempt.toNat ≤ 1000
  detail_short : detail.length ≤ kMaximumCiDetailBytes

def Report.record (report : Report) (job : CiJobRequest) (steps : List CiStepResult) :
    CiRunRecord :=
  { queuedRecord job with
    status := report.status
    started_epoch_seconds := report.started
    finished_epoch_seconds := report.finished
    heartbeat_epoch_seconds := report.heartbeat
    runner := report.runner
    attempt := report.attempt
    detail := report.detail
    execution := report.execution
    steps }

/-- The longest ref a job file is read back with; a longer one is set aside at
its claim, and a distributed workflow with one is refused. -/
def kMaximumRefBytes : Nat := 512

/-- The run records written for a workflow. -/
inductive Recorded (workflow : CiWorkflow) (push : Push) : CiRunRecord → Prop where
  /-- enqueueCiJob: a version 1 workflow, or one that cannot be prepared. -/
  | preview : Recorded workflow push (previewRecord (push.parent workflow))
  /-- A record of the run without steps: recordCiOutcome, the summary of
  reconcileWorkflowGroups and finalizeCiWorkflowResults. -/
  | summary (read : push.ref.length ≤ kMaximumRefBytes) (report : Report) :
      Recorded workflow push (report.record (push.parent workflow) [])
  /-- A progress frame or the finish of a legacy job. -/
  | attempt (version : workflow.version = 1) (read : push.ref.length ≤ kMaximumRefBytes)
      (report : Report) (outcomes : List StepOutcome) :
      Recorded workflow push
        (report.record (push.parent workflow) (recordedSteps (stepNames workflow) outcomes))
  | childQueued (version : workflow.version = 2) (read : push.ref.length ≤ kMaximumRefBytes)
      {job : CiJob} (member : job ∈ workflow.jobs) :
      Recorded workflow push (queuedRecord (push.child workflow job))
  /-- A progress frame or the finish of a child. -/
  | childAttempt (version : workflow.version = 2) (read : push.ref.length ≤ kMaximumRefBytes)
      {job : CiJob} (member : job ∈ workflow.jobs) {selected : CiWorkflow}
      (assigned : selectCiWorkflowJob workflow job.name = .ok selected)
      (report : Report) (outcomes : List StepOutcome) :
      Recorded workflow push
        (report.record (push.child workflow job) (recordedSteps (stepNames selected) outcomes))

/-- The limits of a run record on its step count and its serialized size. -/
def WithinLimits (record : CiRunRecord) : Prop :=
  record.steps.length ≤ kMaximumCiSteps
    ∧ (serializeRun record).length ≤ kMaximumCiRunRecordBytes

/-- The longest line of a step that exits with 0, without the exit code's digits beyond one. -/
def passedStepBytes (name : Bytes) : Nat := 12 + 2 * name.length

/-- The largest record of a version 1 run: every field at its limit and every
step recorded, the last with an eleven-byte exit code. -/
def largestRecordBytes (workflow : CiWorkflow) (push : Push) : Nat :=
  1446 + push.job_id.length + push.project_name.length + 2 * push.ref.length
    + push.commit_id.length + (decimal (stepNames workflow).length).length
    + ((stepNames workflow).map passedStepBytes).sum

def previewBytes (workflow : CiWorkflow) (push : Push) : Nat :=
  190 + push.job_id.length + push.project_name.length + 2 * push.ref.length
    + push.commit_id.length + 2 * (waitingText workflow.runs_on).length

/-- A job that can be claimed fits when the workflow is distributed, or its
steps all fit into one record; any other only has its preview. -/
def Recordable (workflow : CiWorkflow) (push : Push) : Prop :=
  if push.ref.length ≤ kMaximumRefBytes then
    workflow.version = 2 ∨ ((stepNames workflow).length ≤ kMaximumCiSteps
      ∧ largestRecordBytes workflow push ≤ kMaximumCiRunRecordBytes)
  else previewBytes workflow push ≤ kMaximumCiRunRecordBytes

theorem recordedSteps_length (names : List Bytes) (outcomes : List StepOutcome) :
    (recordedSteps names outcomes).length ≤ names.length := by
  fun_induction recordedSteps names outcomes with
  | case1 name names outcome outcomes ih =>
    split
    · exact Nat.succ_le_succ (Nat.zero_le _)
    · exact Nat.succ_le_succ ih
  | case2 => exact Nat.zero_le _

theorem passed_width : (decimalInt (0 : Int32).toInt).length = 1 := by decide

/-- Only the last recorded step has an exit code of more than one digit. -/
theorem recordedSteps_bytes (names : List Bytes) (outcomes : List StepOutcome) :
    ((recordedSteps names outcomes).map stepBytes).sum
      ≤ (names.map passedStepBytes).sum + 10 := by
  fun_induction recordedSteps names outcomes with
  | case1 name names outcome outcomes ih =>
    have width := exit_width outcome.exit_code
    simp only [List.map_cons, List.sum_cons, stepBytes, passedStepBytes]
    split
    · simp only [List.map_nil, List.sum_nil]
      omega
    · rename_i going
      have passed : outcome.exit_code = 0 := by
        simp only [StepOutcome.stops, Bool.or_eq_true, bne_iff_ne, not_or, not_not] at going
        exact going.2
      rw [passed, passed_width]
      omega
  | case2 => simp

/-- All steps pass but the last, which fails with the longest exit code. -/
def longestOutcomes : List Bytes → List StepOutcome
  | [] => []
  | [_] => [{ exit_code := Int32.minValue }]
  | _ :: next :: rest => {} :: longestOutcomes (next :: rest)

theorem longest_width : (decimalInt Int32.minValue.toInt).length = 11 := by decide

theorem longestOutcomes_steps {names : List Bytes} (nonempty : names ≠ []) :
    (recordedSteps names (longestOutcomes names)).length = names.length
      ∧ ((recordedSteps names (longestOutcomes names)).map stepBytes).sum
        = (names.map passedStepBytes).sum + 10 := by
  fun_induction longestOutcomes names with
  | case1 => exact absurd rfl nonempty
  | case2 name =>
    have stops : StepOutcome.stops { exit_code := Int32.minValue } = true := by decide
    constructor
    · simp [recordedSteps]
    · simp only [recordedSteps, ite_self, List.map_cons, List.map_nil, List.sum_cons, List.sum_nil,
        stepBytes, passedStepBytes, longest_width]
      omega
  | case3 name next rest ih =>
    have going : StepOutcome.stops {} = false := by decide
    obtain ⟨count, bytes⟩ := ih (List.cons_ne_nil _ _)
    constructor
    · simpa [recordedSteps, going] using count
    · simp only [recordedSteps, going, Bool.false_eq_true, if_false, List.map_cons,
        List.sum_cons, stepBytes, passedStepBytes, passed_width] at bytes ⊢
      omega

theorem Report.size (report : Report) (job : CiJobRequest) (steps : List CiStepResult) :
    (serializeRun (report.record job steps)).length
      ≤ 1436 + job.job_id.length + job.project_name.length + 2 * job.ref.length
        + job.commit_id.length + job.parent_run_id.length + job.workflow_job.length
        + (decimal steps.length).length + (steps.map stepBytes).sum := by
  have status := status_width report.status
  have started := epoch_width report.started
  have finished := epoch_width report.finished
  have heartbeat := epoch_width report.heartbeat
  have attempt := attempt_width report.attempt_few
  have execution := execution_width report.execution
  have detail : report.detail.length ≤ 512 := report.detail_short
  have runner : (report.record job steps).shownRunner.length ≤ 64 := by
    apply shownRunner_width
    rcases report.runner_valid with none | valid
    · simp [Report.record, none]
    · exact isValidClientId_length valid
  rw [serializeRun_length]
  simp only [Report.record, queuedRecord] at runner ⊢
  omega

theorem waitingText_length {labels : List Bytes} (bounded : BoundedLabels labels) :
    (waitingText labels).length ≤ 600 := by
  have short : (formatCiLabelList labels).length ≤ labels.length * (kMaximumCiLabelBytes + 1) :=
    joined_length fun label member => isValidCiLabel_length (bounded.2 label member)
  have few : labels.length ≤ 16 := bounded.1
  have product : labels.length * (kMaximumCiLabelBytes + 1) ≤ 16 * (kMaximumCiLabelBytes + 1) :=
    Nat.mul_le_mul_right _ few
  have limit : kMaximumCiLabelBytes = 32 := rfl
  unfold waitingText
  split
  · exact Nat.zero_le _
  · have key : "waiting for a runner labelled ".length = 30 := rfl
    simp only [List.length_append, ascii_length, key]
    omega

theorem preview_size (workflow : CiWorkflow) (push : Push) :
    (serializeRun (previewRecord (push.parent workflow))).length = previewBytes workflow push := by
  have runner : (previewRecord (push.parent workflow)).shownRunner.length = 1 := rfl
  rw [serializeRun_length, previewBytes, runner]
  have status : (ciRunStatusName .pending).length = 7 := rfl
  have zero : (decimal (0 : UInt64).toNat).length = 1 := rfl
  have one : (decimal (1 : UInt32).toNat).length = 1 := rfl
  have none : (decimal 0).length = 1 := rfl
  simp only [previewRecord, queuedRecord, Push.parent, status, zero, one, executionBytes,
    List.length_nil, List.map_nil, List.sum_nil, none]
  omega

end CkGit.Workflow
