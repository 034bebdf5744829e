import CkGit.Ci.JobCodec
import CkGit.Ci.RecordSize

/-!
A serialized job fits the size the readers allow.
-/
namespace CkGit.Ci
open CkGit.Base

theorem isValidSha256Hex_length {digest : Bytes} (h : isValidSha256Hex digest) : digest.length = 64 := by
  simp only [isValidSha256Hex, Bool.and_eq_true, beq_iff_eq] at h
  exact h.1

theorem validJobMembership_length {id parent name : Bytes} (h : validJobMembership id parent name) :
    parent.length ≤ 64 ∧ name.length ≤ kMaximumCiArtifactNameBytes := by
  simp only [validJobMembership, isValidCiArtifactName, Bool.or_eq_true, Bool.and_eq_true, List.isEmpty_iff,
    decide_eq_true_eq] at h
  rcases h with ⟨rfl, rfl⟩ | ⟨⟨id, _⟩, ⟨_, name⟩, _⟩
  · exact ⟨Nat.zero_le _, Nat.zero_le _⟩
  · exact ⟨isValidCiId_length id, name⟩

theorem dependencyList_length {needs : List Bytes} (few : needs.length ≤ 64) (ids : ∀ id ∈ needs, isValidCiId id) :
    (dependencyList needs).length ≤ 64 * 65 := by
  have bound : (joined needs).length ≤ needs.length * (64 + 1) :=
    joined_length fun id inside => isValidCiId_length (ids id inside)
  exact bound.trans (Nat.mul_le_mul few (by decide))

theorem labels_length {labels : List Bytes} (few : labels.length ≤ 16) (valid : ∀ label ∈ labels, isValidCiLabel label) :
    (formatCiLabelList labels).length ≤ 16 * 33 := by
  have each : ∀ label ∈ labels, label.length ≤ 32 := fun label inside => by
    have ok := valid label inside
    simp only [isValidCiLabel, Bool.and_eq_true, decide_eq_true_eq] at ok
    exact ok.1.1.2
  exact (joined_length each).trans (Nat.mul_le_mul few (by decide))

theorem jobKeys_length : (ascii "job_id=").length = 7 ∧ (ascii "project=").length = 8 ∧ (ascii "ref_hex=").length = 8
    ∧ (ascii "commit=").length = 7 ∧ (ascii "client_id=").length = 10 ∧ (ascii "queued_epoch=").length = 13
    ∧ (ascii "attempt=").length = 8 ∧ (ascii "runs_on=").length = 8 ∧ (ascii "auto_cancel=").length = 12
    ∧ (ascii "parent_run_id=").length = 14 ∧ (ascii "workflow_job=").length = 13 ∧ (ascii "needs=").length = 6
    ∧ (ascii "dependency_lock_sha256=").length = 23 := by decide

/-- A readable job is written within the size its readers allow. -/
theorem ReadableJob.fits {job : CiJobRequest} (h : ReadableJob job) (few : job.runs_on.length ≤ kMaximumCiLabels) :
    (serializeJob job).length ≤ kMaximumCiRunRecordBytes := by
  have id : job.job_id.length ≤ 64 := isValidCiId_length h.id_valid
  have project := isValidProjectName_length h.project_valid
  have client := isValidClientId_length h.client_valid
  have commit := isValidObjectId_length h.commit_valid
  have member := validJobMembership_length h.membership
  have ref := h.ref_short
  have queued := epoch_width job.queued_epoch_seconds
  have attempt := attempt_width h.attempt_range.2
  have labels := labels_length few h.labels_valid
  have valid := h.dependencies_valid
  simp only [validDependencies, Bool.and_eq_true, Bool.or_eq_true, decide_eq_true_eq, List.all_eq_true] at valid
  have needs := dependencyList_length valid.1.1.1.2 fun id inside => (valid.1.2 id inside).1.1
  have name := member.2
  have flag : (if job.auto_cancel then ascii "true" else ascii "false").length ≤ 5 := by split <;> decide
  have lock : job.dependency_lock_sha256.length ≤ 64 := by
    rcases valid.1.1.1.1.2 with none | some
    · rw [List.isEmpty_iff.mp none]
      exact Nat.zero_le _
    · exact (isValidSha256Hex_length some).le
  have tail : (framed (if job.dependency_lock_sha256.isEmpty then []
      else [ascii "dependency_lock_sha256=" ++ job.dependency_lock_sha256])).length ≤ 88 := by
    split
    · exact Nat.zero_le _
    · simp only [framed_length, List.map_cons, List.map_nil, List.sum_cons, List.sum_nil, List.length_append, jobKeys_length]
      omega
  have head : (if job.dependency_lock_sha256.isEmpty then ascii "schema_version=5"
      else ascii "schema_version=6").length = 16 := by split <;> decide
  have bound : (serializeJob job).length ≤ 65536 := by
    unfold serializeJob jobLines
    generalize (if job.dependency_lock_sha256.isEmpty then ascii "schema_version=5"
      else ascii "schema_version=6") = first at head
    generalize (if job.dependency_lock_sha256.isEmpty then []
      else [ascii "dependency_lock_sha256=" ++ job.dependency_lock_sha256]) = last at tail
    generalize (if job.auto_cancel then ascii "true" else ascii "false") = policy at flag
    simp only [framed_length] at tail
    simp only [framed_length, List.map_append, List.sum_append, List.map_cons, List.map_nil, List.sum_cons,
      List.sum_nil, List.length_append, hexEncode_length, jobKeys_length]
    unfold kMaximumCiArtifactNameBytes at name
    omega
  exact bound

end CkGit.Ci
