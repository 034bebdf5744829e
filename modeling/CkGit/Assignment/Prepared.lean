import CkGit.Assignment.Model
import CkGit.Ci.JobCodec

/-!
The jobs that are handed out: a valid request, the workflow of its text, and the
sisters that the workflow declares. What is read of such a job is such a job.
-/
namespace CkGit.Assignment
open CkGit.Base CkGit.Ci CkGit.Workflow
open CkGit.Listings (isValidReleaseTag)

/-- What parseJob promises of a request that travels. -/
structure ValidRequest (job : CiJobRequest) : Prop where
  id_valid : isValidCiId job.job_id = true
  project_valid : isValidProjectName job.project_name = true
  commit_valid : isValidObjectId job.commit_id = true
  ref_short : job.ref.length ≤ 512
  membership : validJobMembership job.job_id job.parent_run_id job.workflow_job = true

/-- The workflow that a job is given: all of version 1, or one job of version 2. -/
inductive Assigned (parsed : CiWorkflow) (job : CiJobRequest) : CiWorkflow → Prop where
  | whole (version : parsed.version = 1) (alone : job.parent_run_id = []) : Assigned parsed job parsed
  | child {workflow : CiWorkflow} (version : parsed.version = 2) (parent : job.parent_run_id ≠ [])
      (selected : selectCiWorkflowJob parsed job.workflow_job = .ok workflow) : Assigned parsed job workflow

/-- A valid request with the workflow of its text and the sisters the workflow declares. -/
structure Prepared (prepared : CiPreparedJob) : Prop where
  request : ValidRequest prepared.job
  workflow : ∃ parsed, parseCiWorkflow prepared.workflow_text = .ok parsed
    ∧ Assigned parsed prepared.job prepared.workflow
  release : prepared.is_release = true → isValidReleaseTag prepared.release_tag = true
  sisters_few : prepared.sisters.length ≤ kMaximumCiSisters
  sisters : ∀ sister ∈ prepared.sisters, isValidObjectId sister.commit = true
    ∧ ∃ own ∈ prepared.workflow.sisters, own.name = sister.name ∧ own.checkout = sister.checkout

/-- What is read of a job: the client and the queue's own fields do not travel. -/
def received (prepared : CiPreparedJob) : CiPreparedJob :=
  { prepared with
    job := {
      job_id := prepared.job.job_id
      project_name := prepared.job.project_name
      ref := prepared.job.ref
      commit_id := prepared.job.commit_id
      client_id := ascii "remote"
      attempt := prepared.job.attempt
      parent_run_id := prepared.job.parent_run_id
      workflow_job := prepared.job.workflow_job
      runs_on := if prepared.workflow.version = 2 then prepared.workflow.runs_on else [] }
    release_tag := prepared.sentTag }

@[simp] theorem received_sentTag (prepared : CiPreparedJob) : (received prepared).sentTag = prepared.sentTag := by
  unfold CiPreparedJob.sentTag received
  cases shape : prepared.is_release <;> simp [CiPreparedJob.sentTag, shape]

@[simp] theorem received_received (prepared : CiPreparedJob) :
    received (received prepared) = received prepared := by
  have same := received_sentTag prepared
  rw [received, same]
  rfl

theorem Prepared.onward {prepared : CiPreparedJob} (valid : Prepared prepared) :
    Prepared (received prepared) := by
  obtain ⟨request, ⟨parsed, read, assigned⟩, release, few, sisters⟩ := valid
  refine ⟨⟨request.id_valid, request.project_valid, request.commit_valid, request.ref_short, request.membership⟩,
    ⟨parsed, read, ?_⟩, fun released => ?_, few, sisters⟩
  · cases assigned with
    | whole version alone => exact .whole version alone
    | child version parent selected => exact .child version parent selected
  · have released : prepared.is_release = true := released
    have tag := release released
    rwa [← show prepared.sentTag = prepared.release_tag from if_pos released] at tag

theorem select_ok {parsed workflow : CiWorkflow} {name : Bytes} (h : selectCiWorkflowJob parsed name = .ok workflow) :
    workflow.version = 2 ∧ workflow.sisters = parsed.sisters := by
  unfold selectCiWorkflowJob at h
  split at h
  · cases h
  · rename_i version
    split at h
    · cases h
    · cases h
      exact ⟨not_not.mp version, rfl⟩

theorem Assigned.sisters {parsed workflow : CiWorkflow} {job : CiJobRequest} (assigned : Assigned parsed job workflow) :
    workflow.sisters = parsed.sisters := by
  cases assigned with
  | whole version alone => rfl
  | child version parent selected => exact (select_ok selected).2

/-- The declared sister decides, since no other has its name. -/
theorem withCheckout_declared {declared : List CiSister} (once : (declared.map CiSister.name).Nodup)
    {own : CiSister} (member : own ∈ declared) (sister : CiResolvedSister) (same : own.name = sister.name) :
    withCheckout declared sister = { sister with checkout := own.checkout } := by
  have apart : ∀ (others : List CiSister) (sister : CiResolvedSister),
      sister.name ∉ others.map CiSister.name → withCheckout others sister = sister := by
    intro others
    induction others with
    | nil => exact fun _ _ => rfl
    | cons first rest ih =>
      intro sister absent
      rw [List.map_cons, List.mem_cons, not_or] at absent
      rw [withCheckout, List.foldl_cons, if_neg fun equal => absent.1 equal.symm]
      exact ih sister absent.2
  induction declared with
  | nil => cases member
  | cons first rest ih =>
    rw [List.map_cons, List.nodup_cons] at once
    rw [withCheckout, List.foldl_cons]
    rcases List.mem_cons.mp member with rfl | later
    · rw [if_pos same]
      exact apart rest _ (same ▸ once.1)
    · have other : first.name ≠ sister.name := by
        intro equal
        apply once.1
        rw [equal, ← same]
        exact List.mem_map_of_mem later
      rw [if_neg other]
      exact ih once.2 later

theorem Prepared.named {prepared : CiPreparedJob} (valid : Prepared prepared) :
    ∀ sister ∈ prepared.sisters, isValidProjectName sister.name = true
      ∧ withCheckout prepared.workflow.sisters { sister with checkout := {} } = sister := by
  obtain ⟨parsed, read, assigned⟩ := valid.workflow
  obtain ⟨-, root, interpreted⟩ := parseCiWorkflow_ok read
  obtain ⟨names, once⟩ := interpret_sisters interpreted
  rw [← assigned.sisters] at names once
  intro sister member
  obtain ⟨-, own, declared, same, history⟩ := valid.sisters sister member
  refine ⟨same ▸ names own declared, ?_⟩
  rw [withCheckout_declared once declared { sister with checkout := {} } same, history]

theorem parseSister_line {sister : CiResolvedSister} (name : isValidProjectName sister.name = true)
    (commit : isValidObjectId sister.commit = true) :
    parseSister (sisterLine sister) = .ok { sister with checkout := {} } := by
  have characters := List.all_eq_true.mp (isValidProjectName_characters name)
  have solid : ∀ byte ∈ sister.name, (byte != space) = true := by
    intro byte inside
    have kept := characters byte inside
    simp only [bne_iff_ne]
    rintro rfl
    exact absurd kept (by decide)
  have before : (sister.name ++ space :: sister.commit).takeWhile (· != space) = sister.name := by
    rw [List.takeWhile_append_of_pos solid]
    simp
  have after : (sister.name ++ space :: sister.commit).dropWhile (· != space) = space :: sister.commit := by
    rw [List.dropWhile_append_of_pos solid]
    simp
  simp only [parseSister, sisterLine, bind_ok, pure_ok, rejectIf_ok]
  refine ⟨_, finishField_append _ _, (), by simp, (), ?_, ?_⟩
  · rw [before, after]
    simp [name, commit]
  · rw [before, after]
    rfl

end CkGit.Assignment
