import CkGit.Workflow.Recording

/-!
Which accepted workflows can be recorded to the end. A distributed workflow
always can: a child has at most 128 steps with names of at most 64 bytes. A
version 1 workflow can exactly when its largest record fits, and four jobs of
128 steps are enough to exceed it.
-/
namespace CkGit.Workflow
open CkGit.Base CkGit.Ci

variable {workflow : CiWorkflow} {push : Push}

theorem Push.ids_short (push : Push) :
    push.job_id.length ≤ 64 ∧ push.project_name.length ≤ 64 ∧ push.commit_id.length ≤ 64 :=
  ⟨isValidCiId_length push.valid.1, isValidProjectName_length push.valid.2.1,
    isValidObjectId_length push.valid.2.2.1⟩

theorem sum_le_bound {values : List Nat} {limit : Nat} (h : ∀ value ∈ values, value ≤ limit) :
    values.sum ≤ values.length * limit := by
  induction values with
  | nil => simp
  | cons value rest ih =>
    have first := h value List.mem_cons_self
    have others := ih fun other inside => h other (List.mem_cons_of_mem _ inside)
    rw [List.sum_cons, List.length_cons, Nat.succ_mul]
    omega

/-- The name a step of a bounded job is recorded under. -/
theorem BoundedJob.names {job : CiJob} (h : BoundedJob job) :
    ∀ name ∈ job.steps.map fun step => if step.name.isEmpty then job.name else step.name,
      name.length ≤ kMaximumCiNameBytes := by
  intro name member
  obtain ⟨step, inside, rfl⟩ := List.mem_map.mp member
  split
  · exact isValidCiName_length h.name_valid
  · exact h.step_names step inside

theorem stepNames_nonempty (bounded : BoundedWorkflow workflow) : stepNames workflow ≠ [] := by
  obtain ⟨job, rest, jobs⟩ := List.exists_cons_of_ne_nil bounded.jobs_nonempty
  have first := bounded.jobs_bounded job (jobs ▸ List.mem_cons_self)
  have steps := first.steps_nonempty
  simp [stepNames, jobs, steps]

/-- The workflow a child runs is its own job alone. -/
theorem selected_steps {job : CiJob} {selected : CiWorkflow} (bounded : BoundedWorkflow workflow)
    (assigned : selectCiWorkflowJob workflow job.name = .ok selected) :
    (stepNames selected).length ≤ kMaximumCiStepsPerJob
      ∧ ∀ name ∈ stepNames selected, name.length ≤ kMaximumCiNameBytes := by
  unfold selectCiWorkflowJob at assigned
  split at assigned
  · cases assigned
  · split at assigned
    · cases assigned
    · rename_i chosen found
      cases assigned
      have inside := List.mem_of_find?_eq_some found
      have own := bounded.jobs_bounded chosen inside
      constructor
      · simpa [stepNames] using own.steps_few
      · simpa [stepNames] using own.names

theorem summary_fits (read : push.ref.length ≤ kMaximumRefBytes) (report : Report) :
    WithinLimits (report.record (push.parent workflow) []) := by
  have size := report.size (push.parent workflow) []
  obtain ⟨id, project, commit⟩ := push.ids_short
  have ref : push.ref.length ≤ 512 := read
  have none : (decimal 0).length = 1 := rfl
  constructor
  · exact Nat.zero_le _
  · simp only [Push.parent, List.length_nil, List.map_nil, List.sum_nil, none,
      kMaximumCiRunRecordBytes] at size ⊢
    omega

theorem childQueued_fits {job : CiJob} (bounded : BoundedJob job)
    (read : push.ref.length ≤ kMaximumRefBytes) :
    WithinLimits (queuedRecord (push.child workflow job)) := by
  obtain ⟨id, project, commit⟩ := push.ids_short
  have child : (push.child_id job.name).length ≤ 64 :=
    isValidCiId_length (push.children_valid job.name).1
  have ref : push.ref.length ≤ 512 := read
  have name : job.name.length ≤ 64 := isValidCiName_length bounded.name_valid
  have runner : (queuedRecord (push.child workflow job)).shownRunner.length = 1 := rfl
  have status : (ciRunStatusName .pending).length = 7 := rfl
  have zero : (decimal (0 : UInt64).toNat).length = 1 := rfl
  have one : (decimal (1 : UInt32).toNat).length = 1 := rfl
  have none : (decimal 0).length = 1 := rfl
  constructor
  · exact Nat.zero_le _
  · rw [serializeRun_length, runner]
    simp only [queuedRecord, Push.child, Push.parent, status, zero, one, executionBytes,
      List.length_nil, List.map_nil, List.sum_nil, none, kMaximumCiRunRecordBytes]
    omega

theorem childAttempt_fits {job : CiJob} {selected : CiWorkflow}
    (bounded : BoundedWorkflow workflow) (member : job ∈ workflow.jobs)
    (read : push.ref.length ≤ kMaximumRefBytes)
    (assigned : selectCiWorkflowJob workflow job.name = .ok selected)
    (report : Report) (outcomes : List StepOutcome) :
    WithinLimits
      (report.record (push.child workflow job) (recordedSteps (stepNames selected) outcomes)) := by
  obtain ⟨id, project, commit⟩ := push.ids_short
  have child : (push.child_id job.name).length ≤ 64 :=
    isValidCiId_length (push.children_valid job.name).1
  have ref : push.ref.length ≤ 512 := read
  have name : job.name.length ≤ 64 :=
    isValidCiName_length (bounded.jobs_bounded job member).name_valid
  obtain ⟨few, short⟩ := selected_steps bounded assigned
  have count := Nat.le_trans (recordedSteps_length (stepNames selected) outcomes) few
  have digits : (decimal (recordedSteps (stepNames selected) outcomes).length).length ≤ 3 := by
    apply decimal_length_le (by decide)
    exact Nat.lt_of_le_of_lt count (by decide)
  have bytes := recordedSteps_bytes (stepNames selected) outcomes
  have lines : ((stepNames selected).map passedStepBytes).sum ≤ 128 * 140 := by
    have each : ∀ value ∈ (stepNames selected).map passedStepBytes, value ≤ 140 := by
      intro value inside
      obtain ⟨name, listed, rfl⟩ := List.mem_map.mp inside
      have fits : name.length ≤ 64 := short name listed
      simp only [passedStepBytes]
      omega
    have total := sum_le_bound each
    rw [List.length_map] at total
    exact Nat.le_trans total (Nat.mul_le_mul_right _ few)
  have size := report.size (push.child workflow job) (recordedSteps (stepNames selected) outcomes)
  constructor
  · exact Nat.le_trans count (by decide)
  · simp only [Push.child, Push.parent, Report.record, queuedRecord,
      kMaximumCiRunRecordBytes] at size ⊢
    omega

/-- No record of a version 1 attempt is larger than the largest. -/
theorem attempt_size (report : Report) (outcomes : List StepOutcome) :
    (serializeRun (report.record (push.parent workflow)
        (recordedSteps (stepNames workflow) outcomes))).length
      ≤ largestRecordBytes workflow push := by
  have size := report.size (push.parent workflow) (recordedSteps (stepNames workflow) outcomes)
  have bytes := recordedSteps_bytes (stepNames workflow) outcomes
  have digits := decimal_length_mono (recordedSteps_length (stepNames workflow) outcomes)
  simp only [Push.parent, List.length_nil] at size
  simp only [largestRecordBytes, Push.parent]
  omega

/-- A report with every field at its limit. -/
def longestReport : Report where
  status := .cancelled
  started := .ofNat (2 ^ 64 - 1)
  finished := .ofNat (2 ^ 64 - 1)
  heartbeat := .ofNat (2 ^ 64 - 1)
  runner := List.replicate 64 'r'.toUInt8
  attempt := 1000
  detail := List.replicate 512 'd'.toUInt8
  execution := some
    { platform := .linux, architecture := .arm64, isolation := .linuxNamespaces,
      network := .loopbackOnly, memory_bytes := .ofNat (2 ^ 64 - 1),
      process_limit := .ofNat (2 ^ 32 - 1), timeout_seconds := .ofNat (2 ^ 32 - 1),
      consistent := by decide }
  runner_valid := .inr (by decide +kernel)
  attempt_few := by decide
  detail_short := by decide +kernel

/-- The largest record is written when only the last step fails. -/
theorem attempt_largest (nonempty : stepNames workflow ≠ []) :
    (serializeRun (longestReport.record (push.parent workflow)
        (recordedSteps (stepNames workflow) (longestOutcomes (stepNames workflow))))).length
      = largestRecordBytes workflow push := by
  obtain ⟨count, bytes⟩ := longestOutcomes_steps nonempty
  have header : (ciRunStatusName longestReport.status).length = 9
      ∧ (decimal longestReport.started.toNat).length = 20
      ∧ (decimal longestReport.finished.toNat).length = 20
      ∧ (decimal longestReport.heartbeat.toNat).length = 20
      ∧ (decimal longestReport.attempt.toNat).length = 4 ∧ longestReport.detail.length = 512
      ∧ executionBytes longestReport.execution = 98 := by
    decide +kernel
  have runner : ∀ job steps, (longestReport.record job steps).shownRunner.length = 64 := by
    intro job steps
    rfl
  rw [serializeRun_length, runner]
  simp only [Report.record, queuedRecord, Push.parent, header, List.length_nil, bytes, count,
    largestRecordBytes]
  omega

theorem preview_fits (bounded : BoundedWorkflow workflow) (fits : Recordable workflow push) :
    WithinLimits (previewRecord (push.parent workflow)) := by
  refine ⟨Nat.zero_le _, ?_⟩
  rw [preview_size]
  unfold Recordable at fits
  split at fits
  · rename_i read
    have ref : push.ref.length ≤ 512 := read
    obtain ⟨id, project, commit⟩ := push.ids_short
    have waiting := waitingText_length bounded.labels_bounded
    simp only [previewBytes, kMaximumCiRunRecordBytes]
    omega
  · exact fits

theorem recorded_fits (bounded : BoundedWorkflow workflow) (fits : Recordable workflow push)
    {record : CiRunRecord} (written : Recorded workflow push record) : WithinLimits record := by
  cases written with
  | preview => exact preview_fits bounded fits
  | summary read report => exact summary_fits read report
  | attempt version read report outcomes =>
    have legacy : workflow.version ≠ 2 := by omega
    unfold Recordable at fits
    rw [if_pos read] at fits
    obtain ⟨few, largest⟩ := fits.resolve_left legacy
    constructor
    · exact Nat.le_trans (recordedSteps_length _ _) few
    · exact Nat.le_trans (attempt_size report outcomes) largest
  | childQueued version read member =>
    exact childQueued_fits (bounded.jobs_bounded _ member) read
  | childAttempt version read member assigned report outcomes =>
    exact childAttempt_fits bounded member read assigned report outcomes

theorem recordable_of_fits (bounded : BoundedWorkflow workflow)
    (all : ∀ record, Recorded workflow push record → WithinLimits record) :
    Recordable workflow push := by
  unfold Recordable
  split
  · rename_i read
    rcases bounded.version_known with legacy | distributed
    · have nonempty := stepNames_nonempty bounded
      have limits := all _ (.attempt legacy read longestReport (longestOutcomes (stepNames workflow)))
      right
      constructor
      · have count := (longestOutcomes_steps nonempty).1
        exact count ▸ limits.1
      · exact attempt_largest nonempty ▸ limits.2
    · exact .inl distributed
  · have limits := all _ .preview
    exact preview_size workflow push ▸ limits.2

/-- Every record written for an accepted workflow stays within the limits of a
run record exactly when the workflow is distributed or its steps all fit into
one record. -/
theorem recorded_fits_iff {root : YamlNode} (accepted : interpret root = .ok workflow)
    (push : Push) :
    (∀ record, Recorded workflow push record → WithinLimits record)
      ↔ Recordable workflow push := by
  have bounded := interpret_bounded accepted
  constructor
  · exact recordable_of_fits bounded
  · intro fits record written
    exact recorded_fits bounded fits written

def samplePush : Push where
  job_id := ascii "1"
  project_name := ascii "site"
  ref := ascii "refs/heads/main"
  commit_id := List.replicate 40 'a'.toUInt8
  client_id := ascii "laptop"
  child_id := fun _ => ascii "2"
  valid := by decide
  children_valid := fun _ => by decide

/-- One job with one step. -/
def narrowRoot : YamlNode :=
  .mapping
    [(ascii "version", .scalar (ascii "1") 1),
      (ascii "jobs", .sequence
        [.mapping
          [(ascii "name", .scalar (ascii "build") 3),
            (ascii "steps", .sequence [.mapping [(ascii "run", .scalar (ascii "make") 5)] 5] 4)]
          3] 2)] 1

def narrowWorkflow : CiWorkflow where
  tags := [ascii "*"]
  triggers_default_branch := true
  jobs := [{ name := ascii "build", steps := [{ script := ascii "make" }] }]

theorem recorded_fits_narrow :
    interpret narrowRoot = .ok narrowWorkflow
      ∧ ∀ record, Recorded narrowWorkflow samplePush record → WithinLimits record := by
  have accepted : interpret narrowRoot = .ok narrowWorkflow := by decide
  have fits : Recordable narrowWorkflow samplePush := by
    rw [Recordable, if_pos (by decide)]
    exact .inr (by decide)
  exact ⟨accepted, (recorded_fits_iff accepted samplePush).mpr fits⟩

def wideJobName (index : UInt8) : Bytes := List.replicate 63 'j'.toUInt8 ++ [index]

/-- A job of 128 unnamed steps, each the command `true`. -/
def wideJob (index : UInt8) : YamlNode :=
  .mapping
    [(ascii "name", .scalar (wideJobName index) 1),
      (ascii "steps", .sequence
        (List.replicate 128 (.mapping [(ascii "run", .scalar (ascii "true") 1)] 1)) 1)] 1

/-- Four such jobs. -/
def wideRoot : YamlNode :=
  .mapping
    [(ascii "version", .scalar (ascii "1") 1),
      (ascii "jobs", .sequence ((ascii "abcd").map wideJob) 1)] 1

def wideWorkflow : CiWorkflow where
  tags := [ascii "*"]
  triggers_default_branch := true
  jobs := (ascii "abcd").map fun index =>
    { name := wideJobName index, steps := List.replicate 128 { script := ascii "true" } }

private theorem wideRoot_accepted : interpret wideRoot = .ok wideWorkflow := by
  decide +kernel

/-- The record of a run whose 512 steps all pass. -/
def wideRecord : CiRunRecord :=
  Report.record { status := .success, runner_valid := .inl rfl, attempt_few := by decide,
                  detail_short := by decide } (samplePush.parent wideWorkflow)
    (recordedSteps (stepNames wideWorkflow) (List.replicate 512 {}))

/-- The finish of an accepted workflow is refused for its size. -/
theorem not_recorded_wide :
    interpret wideRoot = .ok wideWorkflow ∧ Recorded wideWorkflow samplePush wideRecord
      ∧ ¬ WithinLimits wideRecord
      ∧ runRecordText wideRecord
        = .error "ci store: a CI run record exceeds its size limit" := by
  have tooLong : (serializeRun wideRecord).length > kMaximumCiRunRecordBytes := by
    rw [serializeRun_length]
    decide +kernel
  have valid : validJobMembership wideRecord.run_id wideRecord.parent_run_id wideRecord.workflow_job
      ∧ isValidCiId wideRecord.run_id ∧ isValidProjectName wideRecord.project_name
      ∧ isValidObjectId wideRecord.commit_id := by
    decide
  have short : ¬ wideRecord.detail.length > kMaximumCiDetailBytes := by decide
  refine ⟨wideRoot_accepted, ?_, ?_, ?_⟩
  · exact .attempt rfl (by decide) _ _
  · exact fun fits => Nat.not_lt.mpr fits.2 tooLong
  · simp only [runRecordText, failIf, rejectIf, if_neg (not_not.mpr valid), if_neg short,
      if_pos tooLong]
    rfl

end CkGit.Workflow
