import CkGit.Workflow.Model

/-!
What `interpret` guarantees of the workflows it accepts: how many jobs, steps
and labels they hold and how long their names are.
-/
namespace CkGit.Workflow
open CkGit.Base CkGit.Ci

/-- What the steps of one job obey. -/
structure BoundedJob (job : CiJob) : Prop where
  name_valid : isValidCiName job.name
  steps_nonempty : job.steps ≠ []
  steps_few : job.steps.length ≤ kMaximumCiStepsPerJob
  step_names : ∀ step ∈ job.steps, step.name.length ≤ kMaximumCiNameBytes

/-- At most 16 labels of at most 32 bytes each. -/
def BoundedLabels (labels : List Bytes) : Prop :=
  labels.length ≤ kMaximumCiLabels ∧ ∀ label ∈ labels, isValidCiLabel label

structure BoundedWorkflow (workflow : CiWorkflow) : Prop where
  version_known : workflow.version = 1 ∨ workflow.version = 2
  jobs_nonempty : workflow.jobs ≠ []
  jobs_few : workflow.jobs.length ≤ kMaximumCiJobs
  jobs_bounded : ∀ job ∈ workflow.jobs, BoundedJob job
  labels_bounded : BoundedLabels workflow.runs_on

theorem isValidCiName_length {name : Bytes} (h : isValidCiName name) :
    name.length ≤ kMaximumCiNameBytes := by
  simp only [isValidCiName, Bool.and_eq_true, decide_eq_true_eq] at h
  exact h.1.2

theorem isValidCiLabel_length {label : Bytes} (h : isValidCiLabel label) :
    label.length ≤ kMaximumCiLabelBytes := by
  simp only [isValidCiLabel, Bool.and_eq_true, decide_eq_true_eq] at h
  exact h.1.1.2

theorem BoundedLabels.sortedUnique {labels : List Bytes} (h : BoundedLabels labels) :
    BoundedLabels (sortedUnique labels) := by
  constructor
  · exact Nat.le_trans (sortedUnique_length labels) h.1
  · intro label member
    exact h.2 label (mem_sortedUnique.mp member)

theorem labelTexts_few {node : YamlNode} {labels : List Bytes}
    (h : labelTexts node = .ok labels) : labels.length ≤ kMaximumCiLabels := by
  unfold labelTexts at h
  split at h
  · cases h
    exact Nat.succ_le_of_lt (by decide)
  · simp only [bind_ok, tooLargeIf, rejectIf_ok] at h
    obtain ⟨items, _, _, few, mapped⟩ := h
    rw [mapM_length mapped]
    exact Nat.not_lt.mp few

theorem interpretLabels_bounded {node : Option YamlNode} {labels : List Bytes}
    (h : interpretLabels node = .ok labels) : BoundedLabels labels := by
  unfold interpretLabels at h
  split at h
  · cases h
    exact ⟨by decide, by simp⟩
  · rename_i node
    simp only [bind_ok] at h
    obtain ⟨listed, collected, h⟩ := h
    split at h
    · cases h
    · rename_i none_bad
      cases h
      apply BoundedLabels.sortedUnique
      constructor
      · exact labelTexts_few collected
      · intro label member
        have ok := List.find?_eq_none.mp none_bad label member
        simpa using ok

theorem interpretStepName_length {entries : List (Bytes × YamlNode)} {line : Nat} {name : Bytes}
    (h : interpretStepName entries line = .ok name) : name.length ≤ kMaximumCiNameBytes := by
  unfold interpretStepName at h
  split at h
  · cases h
    decide
  · simp only [bind_ok, malformedIf, rejectIf_ok, pure_ok] at h
    obtain ⟨text, _, _, fits, rfl⟩ := h
    simp only [Bool.or_eq_true, decide_eq_true_eq, not_or] at fits
    exact Nat.not_lt.mp fits.2

theorem interpretStep_name {node : YamlNode} {version : Nat} {step : CiStep}
    (h : interpretStep node version = .ok step) : step.name.length ≤ kMaximumCiNameBytes := by
  unfold interpretStep at h
  simp only [bind_ok] at h
  obtain ⟨entries, _, _, _, shell, _, name, named, h⟩ := h
  have short := interpretStepName_length named
  split at h
  · cases h
  · cases h
  · simp only [bind_ok, pure_ok] at h
    obtain ⟨_, _, _, _, _, _, rfl⟩ := h
    exact short
  · simp only [bind_ok, pure_ok] at h
    obtain ⟨_, _, rfl⟩ := h
    exact short
  · simp only [bind_ok, pure_ok] at h
    obtain ⟨_, _, _, _, _, _, _, _, _, _, rfl⟩ := h
    exact short

theorem interpretSteps_bounded {steps : YamlNode} {job_name shell : Bytes} {line version : Nat}
    {results : List CiStep} (h : interpretSteps steps job_name shell line version = .ok results) :
    results ≠ [] ∧ results.length ≤ kMaximumCiStepsPerJob
      ∧ ∀ step ∈ results, step.name.length ≤ kMaximumCiNameBytes := by
  unfold interpretSteps at h
  simp only [bind_ok, malformedAtIf, tooLargeIf, rejectIf_ok] at h
  obtain ⟨items, _, _, some_step, _, few, mapped⟩ := h
  have count := mapM_length mapped
  refine ⟨?_, ?_, mapM_forall ?_ mapped⟩
  · rintro rfl
    apply some_step
    simpa using count.symm
  · rw [count]
    exact Nat.not_lt.mp few
  · intro item step done
    simp only [bind_ok, pure_ok] at done
    obtain ⟨parsed, interpreted, rfl⟩ := done
    have short := interpretStep_name interpreted
    split <;> exact short

/-- What an accepted job was read from. -/
structure JobRead (node : YamlNode) (version : Nat) (job : CiJob) : Prop where
  name_valid : isValidCiName job.name
  labels : ∃ entry, interpretLabels entry = .ok job.runs_on
  needs : job.needs = [] ∨ ∃ items, items.length ≤ kMaximumCiJobs ∧ interpretNeeds items [] = .ok job.needs
  steps : ∃ steps shell, interpretSteps steps job.name shell node.line version = .ok job.steps
  artifact : ∀ artifact, job.artifact = some artifact →
    ∃ entry, interpretArtifact entry job.name = .ok artifact

theorem interpretJob_ok {node : YamlNode} {version : Nat} {job : CiJob}
    (h : interpretJob node version = .ok job) : JobRead node version job := by
  unfold interpretJob at h
  simp only [bind_ok] at h
  obtain ⟨entries, _, _, _, shell, _, runs_on, labels, needs, listed, h⟩ := h
  have needed : needs = [] ∨ ∃ items, items.length ≤ kMaximumCiJobs ∧ interpretNeeds items [] = .ok needs := by
    unfold whenPresent at listed
    split at listed
    · simp only [bind_ok, tooLargeIf, rejectIf_ok] at listed
      obtain ⟨items, _, _, few, listed⟩ := listed
      exact .inr ⟨items, Nat.not_lt.mp few, listed⟩
    · cases listed
      exact .inl rfl
  split at h
  · cases h
  · simp only [bind_ok, malformedAtIf, rejectIf_ok] at h
    obtain ⟨name, _, _, valid, _, _, env, _, h⟩ := h
    split at h
    · cases h
    · simp only [bind_ok, pure_ok] at h
      obtain ⟨steps, interpreted, artifact, given, rfl⟩ := h
      refine ⟨not_not.mp valid, ⟨_, labels⟩, needed, ⟨_, _, interpreted⟩, ?_⟩
      rintro own rfl
      unfold whenPresent at given
      split at given
      · obtain ⟨parsed, allowed, same⟩ := map_ok.mp given
        cases same
        exact ⟨_, allowed⟩
      · cases given

theorem JobRead.bounded {node : YamlNode} {version : Nat} {job : CiJob} (read : JobRead node version job) :
    BoundedJob job := by
  obtain ⟨steps, shell, interpreted⟩ := read.steps
  obtain ⟨nonempty, few, short⟩ := interpretSteps_bounded interpreted
  exact ⟨read.name_valid, nonempty, few, short⟩

theorem interpretJobs_described {items : List YamlNode} {version : Nat} {seen : List Bytes} {jobs : List CiJob}
    (read : interpretJobs items version seen = .ok jobs) :
    List.Forall₂ (fun item job => interpretJob item version = .ok job) items jobs := by
  induction items generalizing seen jobs with
  | nil =>
    cases read
    exact .nil
  | cons item rest ih =>
    simp only [interpretJobs, bind_ok, pure_ok] at read
    obtain ⟨job, first, _, _, others, later, rfl⟩ := read
    exact .cons first (ih later)

theorem described_job {items : List YamlNode} {version : Nat} {jobs : List CiJob}
    (described : List.Forall₂ (fun item job => interpretJob item version = .ok job) items jobs) :
    ∀ job ∈ jobs, ∃ item, interpretJob item version = .ok job := by
  induction described with
  | nil => exact fun _ none => nomatch none
  | cons first _ ih => exact List.forall_mem_cons.mpr ⟨⟨_, first⟩, ih⟩

theorem interpretVersion_known {entries : List (Bytes × YamlNode)} {line version : Nat}
    (h : interpretVersion entries line = .ok version) : version = 1 ∨ version = 2 := by
  unfold interpretVersion at h
  split at h
  · cases h
  · simp only [bind_ok] at h
    obtain ⟨text, _, h⟩ := h
    split at h
    · exact .inl (pure_ok.mp h).symm
    · exact .inr (pure_ok.mp h).symm
    · cases h

/-- What an accepted workflow was read from. -/
structure WorkflowRead (workflow : CiWorkflow) : Prop where
  version_known : workflow.version = 1 ∨ workflow.version = 2
  sisters : workflow.sisters = [] ∨ ∃ items line, interpretSisters items line [] = .ok workflow.sisters
  labels : ∃ entry, interpretLabels entry = .ok workflow.runs_on
  jobs : ∃ items, items ≠ [] ∧ items.length ≤ kMaximumCiJobs
    ∧ List.Forall₂ (fun item job => interpretJob item workflow.version = .ok job) items workflow.jobs

theorem interpret_ok {root : YamlNode} {workflow : CiWorkflow} (h : interpret root = .ok workflow) :
    WorkflowRead workflow := by
  unfold interpret at h
  simp only [bind_ok] at h
  obtain ⟨entries, _, _, _, version, known, auto_cancel, _, triggers, _, env, _, sisters, listed,
    checkout, _, _, _, runs_on, labels, caches, _, pages, _, h⟩ := h
  have named : sisters = [] ∨ ∃ items line, interpretSisters items line [] = .ok sisters := by
    unfold whenPresent at listed
    split at listed
    · simp only [bind_ok] at listed
      obtain ⟨items, _, _, _, listed⟩ := listed
      exact .inr ⟨items, _, listed⟩
    · cases listed
      exact .inl rfl
  split at h
  · cases h
  · simp only [bind_ok, malformedIf, tooLargeIf, rejectIf_ok, pure_ok] at h
    obtain ⟨items, _, _, some_job, _, few, jobs, interpreted, _, _, rfl⟩ := h
    exact ⟨interpretVersion_known known, named, ⟨_, labels⟩, items, by simpa using some_job, Nat.not_lt.mp few,
      interpretJobs_described interpreted⟩

/-- Every accepted workflow stays within the schema's bounds. -/
theorem interpret_bounded {root : YamlNode} {workflow : CiWorkflow}
    (h : interpret root = .ok workflow) : BoundedWorkflow workflow := by
  obtain ⟨version_known, -, ⟨_, labels⟩, items, some_item, few, described⟩ := interpret_ok h
  have count := described.length_eq
  refine ⟨version_known, ?_, count ▸ few, fun job member => ?_, interpretLabels_bounded labels⟩
  · intro none
    rw [none, List.length_nil] at count
    exact some_item (List.length_eq_zero_iff.mp count)
  · obtain ⟨item, read⟩ := described_job described job member
    exact (interpretJob_ok read).bounded

end CkGit.Workflow
