import CkGit.Stream.Steps
import CkGit.Workflow.Recordable

/-!
# What a runner reports

The report a runner sends when a run of an accepted workflow ends
(RemoteCiSink::finish, src/common/ci_remote.cpp, after executeCiJob or the
Windows executor, which keeps a process's exit code as the system reports it),
and when the main host reads it as it was sent.
-/
namespace CkGit.Workflow
open CkGit.Base CkGit.Ci

/-- A workflow that one run executes: a version 1 workflow, or one job of a distributed one. -/
inductive RunOf (root : YamlNode) : CiWorkflow → Prop where
  | legacy {workflow : CiWorkflow} (accepted : interpret root = .ok workflow)
      (version : workflow.version = 1) : RunOf root workflow
  | child {workflow selected : CiWorkflow} {job : CiJob} (accepted : interpret root = .ok workflow)
      (member : job ∈ workflow.jobs) (assigned : selectCiWorkflowJob workflow job.name = .ok selected) :
      RunOf root selected

/-- What an output takes from the workflow: its name and its retention. -/
def declaredOutput (artifact : CiArtifact) : Bytes × UInt32 := (artifact.name, artifact.retention_days)

/-- A report of a run: its steps are those that ran, each with any exit code, and each output is
the artifact of a job, at most once. -/
structure Produced (root : YamlNode) (report : CiFinishReport) : Prop where
  ended : ciRunStatusIsActive report.status = false
  detail_short : report.detail.length ≤ kMaximumCiDetailBytes
  ran : ∃ workflow outcomes, RunOf root workflow
    ∧ report.steps = recordedSteps (stepNames workflow) outcomes
    ∧ (report.outputs.map fun output => (output.name, output.retention_days)).Sublist
      ((workflow.jobs.filterMap (·.artifact)).map declaredOutput)

/-- The report is read back as it was sent, and the streams of the run never held other steps. -/
def FinishFaithful (report : CiFinishReport) : Prop :=
  parseCiFinishReport (formatCiFinishReport report) = .ok report
    ∧ ∀ host last, Stream.Fresh host →
      Relation.ReflTransGen (Stream.HostStep report.steps) host last →
      Stream.HoldsPrefix report.steps last

/-- What the payload's limits ask of a report. -/
structure Reportable (report : CiFinishReport) : Prop where
  exits : ∀ step ∈ report.steps, step.exit_code.toInt.natAbs ≤ kMaximumExitMagnitude
  notes : ∀ output ∈ report.outputs, output.note.length ≤ kMaximumHexTextBytes
  steps_few : report.steps.length ≤ kMaximumCiSteps
  size : (formatCiFinishReport report).length ≤ kMaximumCiFinishPayloadBytes

theorem interpretRetention_bounded {node : YamlNode} {line : Nat} {days : UInt32}
    (h : interpretRetention node line = .ok days) : days.toNat ≤ kMaximumRetentionDays := by
  simp only [interpretRetention, bind_ok] at h
  obtain ⟨text, _, h⟩ := h
  split at h
  · rename_i value found
    have cap := parseDecimal_le found
    have limit : kMaximumCiRetentionDaysCap = 3650 := rfl
    have most : kMaximumRetentionDays = 3650 := rfl
    rw [pure_ok] at h
    subst h
    have small : value + 1 < 2 ^ 32 := by omega
    rw [UInt32.toNat_ofNat', Nat.mod_eq_of_lt small]
    omega
  · cases h

theorem interpretArtifact_allowed {node : YamlNode} {job_name : Bytes} {artifact : CiArtifact}
    (job_valid : isValidCiName job_name) (h : interpretArtifact node job_name = .ok artifact) :
    isValidCiArtifactName artifact.name ∧ artifact.retention_days.toNat ≤ kMaximumRetentionDays := by
  unfold interpretArtifact at h
  simp only [bind_ok] at h
  obtain ⟨entries, _, _, _, name, named, _, _, h⟩ := h
  have name_valid : isValidCiName name := by
    unfold whenPresent at named
    split at named
    · simp only [bind_ok, pure_ok, malformedAtIf, rejectIf_ok, not_not] at named
      obtain ⟨_, _, _, valid, rfl⟩ := named
      exact valid
    · cases named
      exact job_valid
  split at h
  · cases h
  · simp only [bind_ok, pure_ok] at h
    obtain ⟨items, _, _, _, _, _, paths, _, days, retention, rfl⟩ := h
    refine ⟨name_valid, ?_⟩
    unfold whenPresent at retention
    split at retention
    · exact interpretRetention_bounded retention
    · cases retention
      exact Nat.zero_le _

theorem interpret_artifacts {root : YamlNode} {workflow : CiWorkflow}
    (h : interpret root = .ok workflow) : ∀ job ∈ workflow.jobs, ∀ artifact, job.artifact = some artifact →
      isValidCiArtifactName artifact.name ∧ artifact.retention_days.toNat ≤ kMaximumRetentionDays := by
  obtain ⟨-, -, -, items, -, -, described⟩ := interpret_ok h
  intro job member artifact own
  obtain ⟨item, read⟩ := described_job described job member
  have job_read := interpretJob_ok read
  obtain ⟨entry, allowed⟩ := job_read.artifact artifact own
  exact interpretArtifact_allowed job_read.name_valid allowed

/-- The workflow of a run keeps the schema's bounds. -/
theorem RunOf.bounded {root : YamlNode} {workflow : CiWorkflow} (h : RunOf root workflow) :
    workflow.jobs.length ≤ kMaximumCiJobs
      ∧ (∀ name ∈ stepNames workflow, name.length ≤ kMaximumCiNameBytes)
      ∧ ∀ job ∈ workflow.jobs, ∀ artifact, job.artifact = some artifact →
        isValidCiArtifactName artifact.name ∧ artifact.retention_days.toNat ≤ kMaximumRetentionDays := by
  cases h with
  | legacy accepted version =>
    have bounded := interpret_bounded accepted
    refine ⟨bounded.jobs_few, ?_, interpret_artifacts accepted⟩
    intro name member
    obtain ⟨job, inside, named⟩ := List.mem_flatMap.mp member
    exact (bounded.jobs_bounded job inside).names name named
  | @child workflow selected job accepted member assigned =>
    have bounded := interpret_bounded accepted
    have artifacts := interpret_artifacts accepted
    refine ⟨?_, (selected_steps bounded assigned).2, ?_⟩
    all_goals
      unfold selectCiWorkflowJob at assigned
      split at assigned
      · cases assigned
      · split at assigned
        · cases assigned
        · rename_i chosen found
          cases assigned
          simp only [List.length_singleton, List.mem_singleton, forall_eq]
          first
          | decide
          | exact artifacts chosen (List.mem_of_find?_eq_some found)

theorem recordedSteps_names (names : List Bytes) (outcomes : List StepOutcome) :
    ∀ step ∈ recordedSteps names outcomes, step.name ∈ names := by
  fun_induction recordedSteps names outcomes with
  | case1 name names outcome outcomes ih =>
    intro step member
    rcases List.mem_cons.mp member with rfl | later
    · exact List.mem_cons_self
    · split at later
      · cases later
      · exact List.mem_cons_of_mem _ (ih step later)
  | case2 => simp

/-- What a produced report keeps by itself. -/
theorem Produced.sendable {root : YamlNode} {report : CiFinishReport} (h : Produced root report) :
    Sendable report ∧ (∀ step ∈ report.steps, step.name.length ≤ kMaximumHexTextBytes)
      ∧ report.outputs.length ≤ kMaximumCiJobs := by
  obtain ⟨workflow, outcomes, run, steps, outputs⟩ := h.ran
  obtain ⟨few, names, artifacts⟩ := run.bounded
  refine ⟨⟨h.ended, h.detail_short, ?_⟩, ?_, ?_⟩
  · intro output member
    have inside := outputs.subset (List.mem_map_of_mem member)
    obtain ⟨artifact, found, same⟩ := List.mem_map.mp inside
    obtain ⟨job, own, has⟩ := List.mem_filterMap.mp found
    obtain ⟨name, days⟩ := artifacts job own artifact has
    simp only [declaredOutput, Prod.mk.injEq] at same
    exact ⟨same.1 ▸ name, same.2 ▸ days⟩
  · intro step member
    rw [steps] at member
    have short := names _ (recordedSteps_names _ _ step member)
    exact short.trans (by decide)
  · have length := outputs.length_le
    have kept := List.length_filterMap_le (fun job : CiJob => job.artifact) workflow.jobs
    simp only [List.length_map] at length
    omega

/-- A run's report reaches the main host unchanged exactly when it is within the payload's limits. -/
theorem finish_faithful_iff {root : YamlNode} {report : CiFinishReport} (produced : Produced root report) :
    FinishFaithful report ↔ Reportable report := by
  obtain ⟨sendable, names, outputs⟩ := produced.sendable
  constructor
  · rintro ⟨read, _⟩
    obtain ⟨fits, _⟩ := (parse_format_iff sendable).mp read
    exact ⟨fun step member => (fits.steps_fit step member).1, fits.notes_short, fits.steps_few, fits.size⟩
  · intro small
    refine ⟨(parse_format_iff sendable).mpr ⟨?_, rfl⟩, fun host last fresh run =>
      Stream.holdsPrefix_reachable fresh run⟩
    exact ⟨small.size, small.steps_few, fun step member => ⟨small.exits step member, names step member⟩,
      outputs, small.notes⟩

/-- Two named steps, and a packed artifact kept for a week. -/
def packedRoot : YamlNode :=
  .mapping
    [(ascii "version", .scalar (ascii "1") 1),
      (ascii "jobs", .sequence
        [.mapping
          [(ascii "name", .scalar (ascii "build") 3),
            (ascii "steps", .sequence
              [.mapping [(ascii "name", .scalar (ascii "compile") 5), (ascii "run", .scalar (ascii "make") 6)] 5,
                .mapping [(ascii "name", .scalar (ascii "check") 7), (ascii "run", .scalar (ascii "make test") 8)] 7]
              4),
            (ascii "artifacts", .mapping
              [(ascii "name", .scalar (ascii "tool") 10),
                (ascii "paths", .sequence [.scalar (ascii "bin/tool") 12] 11),
                (ascii "retention_days", .scalar (ascii "7") 13)] 9)]
          3] 2)] 1

/-- The report of a run whose second step fails, with an artifact that was not stored whole. -/
def packedReport : CiFinishReport where
  status := .failure
  started_epoch_seconds := 100
  detail := ascii "step check failed"
  steps := [{ name := ascii "compile", exit_code := 0 },
    { name := ascii "check", exit_code := 2, timed_out := true }]
  outputs := [{ name := ascii "tool", retention_days := 7, note := ascii "no bin/tool" }]

theorem finish_faithful_packed : Produced packedRoot packedReport ∧ FinishFaithful packedReport := by
  have produced : Produced packedRoot packedReport := by
    refine ⟨rfl, by decide, _, [{ exit_code := 0 }, { exit_code := 2, timed_out := true }], .legacy rfl rfl, ?_, ?_⟩
    · rfl
    · exact List.Sublist.refl _
  have small : Reportable packedReport :=
    ⟨by decide, by decide, by decide, by decide +kernel⟩
  exact ⟨produced, (finish_faithful_iff produced).mpr small⟩

/-- The report of a run of one step with this exit code. -/
def reportOf (status : CiRunStatus) (exit_code : Int32) : CiFinishReport where
  status := status
  steps := [{ name := ascii "build", exit_code }]

private theorem reportOf_produced {status : CiRunStatus} (ended : ciRunStatusIsActive status = false)
    (exit_code : Int32) : Produced narrowRoot (reportOf status exit_code) := by
  refine ⟨ended, Nat.zero_le _, narrowWorkflow, [{ exit_code }], .legacy (by decide) rfl, ?_, ?_⟩
  · simp [reportOf, stepNames, narrowWorkflow, recordedSteps]
  · exact List.nil_sublist _

/-- An access violation on Windows, 0xC0000005, is refused. -/
theorem not_finish_faithful_violation :
    Produced narrowRoot (reportOf .failure (-1073741819))
      ∧ ¬ FinishFaithful (reportOf .failure (-1073741819)) := by
  refine ⟨reportOf_produced rfl _, ?_⟩
  rintro ⟨read, _⟩
  have refused : parseCiFinishReport (formatCiFinishReport (reportOf .failure (-1073741819)))
      = .error "malformed exit code" := by decide +kernel
  rw [refused] at read
  cases read

end CkGit.Workflow
