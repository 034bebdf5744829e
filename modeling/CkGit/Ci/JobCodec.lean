import CkGit.Ci.JobRecord
import CkGit.Ci.RecordSize

/-!
Reading back a job file: parseJob gives the serialized job again, with its
labels sorted, exactly for a job within the parser's bounds; and everything
parseJob gives is such a job.
-/
namespace CkGit.Ci
open CkGit.Base

theorem not_mem_of_all {p : UInt8 → Bool} {text : Bytes} {byte : UInt8} (h : text.all p)
    (excluded : p byte = false) : byte ∉ text := by
  intro member
  have included := List.all_eq_true.mp h byte member
  rw [excluded] at included
  cases included

theorem isValidCiId_avoids {id : Bytes} (h : isValidCiId id) {byte : UInt8}
    (excluded : isIdCharacter byte = false) : byte ∉ id := by
  simp only [isValidCiId, Bool.and_eq_true] at h
  exact not_mem_of_all h.2 excluded

theorem isValidCiId_nonempty {id : Bytes} (h : isValidCiId id) : id ≠ [] := by
  rintro rfl
  cases h

theorem isValidCiArtifactName_avoids {name : Bytes} (h : isValidCiArtifactName name) {byte : UInt8}
    (excluded : isNameCharacter byte = false) : byte ∉ name := by
  simp only [isValidCiArtifactName, Bool.and_eq_true] at h
  exact not_mem_of_all h.2 excluded

theorem isValidClientId_avoids {id : Bytes} (h : isValidClientId id) : newline ∉ id := by
  simp only [isValidClientId, Bool.and_eq_true] at h
  exact not_mem_of_all h.2 (by decide)

theorem isLowercaseHex_avoids {text : Bytes} (h : isLowercaseHex text) : newline ∉ text :=
  not_mem_of_all h (by decide)

theorem isValidObjectId_avoids {id : Bytes} (h : isValidObjectId id) : newline ∉ id := by
  simp only [isValidObjectId, Bool.and_eq_true] at h
  exact isLowercaseHex_avoids h.2

theorem isValidProjectName_characters {name : Bytes} (h : isValidProjectName name) :
    name.all isNameCharacter := by
  unfold isValidProjectName projectNameError at h
  split at h
  · cases h
  split at h
  · cases h
  split at h
  · cases h
  split at h
  · cases h
  split at h
  · cases h
  split at h
  · cases h
  · rename_i clean
    simpa using clean

theorem isValidProjectName_avoids {name : Bytes} (h : isValidProjectName name) :
    newline ∉ name :=
  not_mem_of_all (isValidProjectName_characters h) (by decide)

theorem isValidCiLabel_avoids {label : Bytes} (h : isValidCiLabel label) :
    newline ∉ label ∧ comma ∉ label ∧ label ≠ [] := by
  simp only [isValidCiLabel, Bool.and_eq_true] at h
  refine ⟨not_mem_of_all h.2 (by decide), not_mem_of_all h.2 (by decide), ?_⟩
  rintro rfl
  simp at h

/-- A job within the bounds of parseJob. -/
structure ReadableJob (job : CiJobRequest) : Prop where
  id_valid : isValidCiId job.job_id
  project_valid : isValidProjectName job.project_name
  client_valid : isValidClientId job.client_id
  commit_valid : isValidObjectId job.commit_id
  dependencies_valid : validDependencies job
  ref_short : job.ref.length ≤ 512
  attempt_range : 1 ≤ job.attempt.toNat ∧ job.attempt.toNat ≤ 1000
  labels_valid : ∀ label ∈ job.runs_on, isValidCiLabel label
  labels_few : (sortedUnique job.runs_on).length ≤ kMaximumCiLabels

theorem ReadableJob.membership {job : CiJobRequest} (h : ReadableJob job) :
    validJobMembership job.job_id job.parent_run_id job.workflow_job := by
  have valid := h.dependencies_valid
  simp only [validDependencies, Bool.and_eq_true] at valid
  exact valid.1.1.1.1.1

theorem ReadableJob.lock {job : CiJobRequest} (h : ReadableJob job) :
    job.dependency_lock_sha256 = [] ∨ isValidSha256Hex job.dependency_lock_sha256 := by
  have valid := h.dependencies_valid
  simp only [validDependencies, Bool.and_eq_true, Bool.or_eq_true, List.isEmpty_iff] at valid
  exact valid.1.1.1.1.2

theorem ReadableJob.needs {job : CiJobRequest} (h : ReadableJob job) :
    job.needs.length ≤ kMaximumCiJobs ∧ ∀ id ∈ job.needs, isValidCiId id := by
  have valid := h.dependencies_valid
  simp only [validDependencies, Bool.and_eq_true, decide_eq_true_eq, List.all_eq_true] at valid
  exact ⟨valid.1.1.1.2, fun id member => (valid.1.2 id member).1.1⟩

theorem membership_avoids {id parent name : Bytes} (h : validJobMembership id parent name) :
    newline ∉ parent ∧ newline ∉ name := by
  simp only [validJobMembership, Bool.or_eq_true, Bool.and_eq_true, List.isEmpty_iff] at h
  rcases h with ⟨rfl, rfl⟩ | ⟨⟨valid, _⟩, named⟩
  · simp
  · exact ⟨isValidCiId_avoids valid (by decide), isValidCiArtifactName_avoids named (by decide)⟩

theorem key_clean {key : String} {value : Bytes} (fixed : newline ∉ ascii key)
    (clean : newline ∉ value) : newline ∉ ascii key ++ value := by
  simp [fixed, clean]

theorem ReadableJob.clean {job : CiJobRequest} (h : ReadableJob job) :
    ∀ line ∈ jobLines job, newline ∉ line := by
  obtain ⟨parent, name⟩ := membership_avoids h.membership
  have labels : newline ∉ formatCiLabelList job.runs_on :=
    joined_avoids (by decide) fun label member => (isValidCiLabel_avoids (h.labels_valid label member)).1
  have needs : newline ∉ dependencyList job.needs :=
    joined_avoids (by decide) fun id member => isValidCiId_avoids (h.needs.2 id member) (by decide)
  have policy : newline ∉ (if job.auto_cancel then ascii "true" else ascii "false") := by
    cases job.auto_cancel <;> decide
  have digits : ∀ n, newline ∉ decimal n := fun n => decimal_avoids (by decide)
  intro line member
  simp only [jobLines, List.mem_append, List.mem_cons, List.not_mem_nil, or_false] at member
  rcases member with (rfl | rfl | rfl | rfl | rfl | rfl | rfl | rfl | rfl | rfl | rfl | rfl | rfl)
    | locked
  · split <;> decide
  · exact key_clean (by decide) (isValidCiId_avoids h.id_valid (by decide))
  · exact key_clean (by decide) (isValidProjectName_avoids h.project_valid)
  · exact key_clean (by decide) (hexEncode_avoids job.ref).1
  · exact key_clean (by decide) (isValidObjectId_avoids h.commit_valid)
  · exact key_clean (by decide) (isValidClientId_avoids h.client_valid)
  · exact key_clean (by decide) (digits _)
  · exact key_clean (by decide) (digits _)
  · exact key_clean (by decide) labels
  · exact key_clean (by decide) policy
  · exact key_clean (by decide) parent
  · exact key_clean (by decide) name
  · exact key_clean (by decide) needs
  · split at locked
    · cases locked
    · rw [List.mem_singleton.mp locked]
      rcases h.lock with none | valid
      · rw [none]
        decide
      · simp only [isValidSha256Hex, Bool.and_eq_true] at valid
        exact key_clean (by decide) (isLowercaseHex_avoids valid.2)

theorem frameLines_framed {lines : List Bytes} (some_line : lines ≠ [])
    (clean : ∀ line ∈ lines, newline ∉ line) : frameLines (framed lines) = .ok lines := by
  simp [frameLines, frame_framed some_line clean, orFail]

theorem field_append (key : String) (value : Bytes) : field key (ascii key ++ value) = .ok value := by
  simp [field, orFail]

theorem parseEpoch_decimal (n : UInt64) : parseEpoch (decimal n.toNat) = .ok n := by
  have bound : n.toNat ≤ 2 ^ 64 - 1 := Nat.le_sub_one_of_lt n.toNat_lt
  rw [parseEpoch, parseDecimal_decimal bound]
  simp [orFail, Except.map]

/-- An attempt within its range is read back. -/
theorem parseEpoch_attempt {n : UInt32} (h : 1 ≤ n.toNat ∧ n.toNat ≤ 1000) :
    ∃ value, parseEpoch (decimal n.toNat) = .ok value ∧ ¬ (value < 1 ∨ value > 1000)
      ∧ UInt32.ofNat value.toNat = n := by
  have bound : n.toNat ≤ 2 ^ 64 - 1 := by omega
  have small : n.toNat % 2 ^ 64 = n.toNat := Nat.mod_eq_of_lt (by omega)
  refine ⟨.ofNat n.toNat, ?_, ?_, by simp⟩
  · rw [parseEpoch, parseDecimal_decimal bound]
    rfl
  · simp only [UInt64.lt_iff_toNat_lt, gt_iff_lt, UInt64.toNat_ofNat', small]
    have one : (1 : UInt64).toNat = 1 := rfl
    have thousand : (1000 : UInt64).toNat = 1000 := rfl
    omega

theorem parseAttempt_decimal {n : UInt32} (h : 1 ≤ n.toNat ∧ n.toNat ≤ 1000) :
    parseAttempt (ascii "attempt=" ++ decimal n.toNat) = .ok n := by
  obtain ⟨value, epoch, range, back⟩ := parseEpoch_attempt h
  simp only [parseAttempt, bind_ok, pure_ok]
  exact ⟨_, field_append _ _, _, epoch, (), rejectIf_ok.mpr range, back⟩

theorem parseAutoCancel_flag (policy : Bool) :
    parseAutoCancel (ascii "auto_cancel=" ++ (if policy then ascii "true" else ascii "false"))
      = .ok policy := by
  cases policy <;> rfl

theorem checkDependencies_valid {ids : List Bytes} {held : Nat}
    (valid : ∀ id ∈ ids, isValidCiId id) (few : held + ids.length ≤ kMaximumCiJobs) :
    checkDependencies ids held = .ok ids := by
  induction ids generalizing held with
  | nil => rfl
  | cons id rest ih =>
    have first := valid id List.mem_cons_self
    simp only [List.length_cons] at few
    have room : ¬ (¬ isValidCiId id ∨ held ≥ kMaximumCiJobs) := by
      simp only [first, not_true, false_or, not_le, ge_iff_le]
      omega
    have filled : rest ≠ [[]] := by
      rintro rfl
      exact isValidCiId_nonempty (valid [] (by simp)) rfl
    have later : checkDependencies rest (held + 1) = .ok rest :=
      ih (fun other inside => valid other (List.mem_cons_of_mem _ inside)) (by omega)
    simp only [checkDependencies, failIf, rejectIf, if_neg room, if_neg filled, later, bind,
      Except.bind, pure, Except.pure]

theorem parseDependencies_list {ids : List Bytes} (valid : ∀ id ∈ ids, isValidCiId id)
    (few : ids.length ≤ kMaximumCiJobs) : parseDependencies (dependencyList ids) = .ok ids := by
  have filled : ∀ id ∈ ids, id ≠ [] := fun id member => isValidCiId_nonempty (valid id member)
  cases ids with
  | nil => rfl
  | cons id rest =>
    have text := joined_ne_nil (List.cons_ne_nil id rest) filled
    have split := splitOn_joined (List.cons_ne_nil id rest) filled
      fun other member => isValidCiId_avoids (valid other member) (by decide)
    have nonempty : (dependencyList (id :: rest)).isEmpty = false := by
      simpa [dependencyList] using text
    simp only [parseDependencies, nonempty, Bool.false_eq_true, if_false]
    rw [dependencyList, split]
    exact checkDependencies_valid valid (by omega)

theorem parseCiLabelList_format {labels : List Bytes} (valid : ∀ label ∈ labels, isValidCiLabel label)
    (few : (sortedUnique labels).length ≤ kMaximumCiLabels) :
    parseCiLabelList (formatCiLabelList labels) = some (sortedUnique labels) := by
  have filled : ∀ label ∈ labels, label ≠ [] := fun label member =>
    (isValidCiLabel_avoids (valid label member)).2.2
  cases labels with
  | nil => rfl
  | cons label rest =>
    have text := joined_ne_nil (List.cons_ne_nil label rest) filled
    have split := splitOn_joined (List.cons_ne_nil label rest) filled
      fun other member => (isValidCiLabel_avoids (valid other member)).2.1
    have nonempty : (formatCiLabelList (label :: rest)).isEmpty = false := by
      simpa [formatCiLabelList] using text
    have all : (label :: rest).all isValidCiLabel := List.all_eq_true.mpr valid
    simp only [parseCiLabelList, nonempty, Bool.false_eq_true, if_false]
    rw [formatCiLabelList, split]
    simp [all, Nat.not_lt.mpr few]

/-- The job as a file of this schema gives it back: the fields of later schemas have
their defaults. -/
def CiJobRequest.asOf (version : Nat) (job : CiJobRequest) : CiJobRequest :=
  { job with
    attempt := if 2 ≤ version then job.attempt else 1
    runs_on := if 3 ≤ version then sortedUnique job.runs_on else []
    auto_cancel := if 4 ≤ version then job.auto_cancel else true
    parent_run_id := if 5 ≤ version then job.parent_run_id else []
    workflow_job := if 5 ≤ version then job.workflow_job else []
    needs := if 5 ≤ version then job.needs else []
    dependency_lock_sha256 := if 6 ≤ version then job.dependency_lock_sha256 else [] }

/-- The job as a queue file gives it back. -/
def CiJobRequest.withSortedLabels (job : CiJobRequest) : CiJobRequest :=
  { job with runs_on := sortedUnique job.runs_on }

theorem jobLines_at (job : CiJobRequest) :
    (jobLines job).getD 1 [] = ascii "job_id=" ++ job.job_id
      ∧ (jobLines job).getD 2 [] = ascii "project=" ++ job.project_name
      ∧ (jobLines job).getD 3 [] = ascii "ref_hex=" ++ hexEncode job.ref
      ∧ (jobLines job).getD 4 [] = ascii "commit=" ++ job.commit_id
      ∧ (jobLines job).getD 5 [] = ascii "client_id=" ++ job.client_id
      ∧ (jobLines job).getD 6 [] = ascii "queued_epoch=" ++ decimal job.queued_epoch_seconds.toNat
      ∧ (jobLines job).getD 7 [] = ascii "attempt=" ++ decimal job.attempt.toNat
      ∧ (jobLines job).getD 8 [] = ascii "runs_on=" ++ formatCiLabelList job.runs_on
      ∧ (jobLines job).getD 9 []
        = ascii "auto_cancel=" ++ (if job.auto_cancel then ascii "true" else ascii "false")
      ∧ (jobLines job).getD 10 [] = ascii "parent_run_id=" ++ job.parent_run_id
      ∧ (jobLines job).getD 11 [] = ascii "workflow_job=" ++ job.workflow_job
      ∧ (jobLines job).getD 12 [] = ascii "needs=" ++ dependencyList job.needs :=
  ⟨rfl, rfl, rfl, rfl, rfl, rfl, rfl, rfl, rfl, rfl, rfl, rfl⟩

theorem field_at {key : String} {line value : Bytes} (h : line = ascii key ++ value) :
    field key line = .ok value := by
  rw [h, field_append]

theorem since_either {α : Type} {version first : Nat} {old result : α} {value : Except String α}
    (read : first ≤ version → value = .ok result) :
    since version first old value = .ok (if first ≤ version then result else old) := by
  unfold since
  split
  · exact read ‹_›
  · rfl

theorem since_ok {α : Type} {version first : Nat} {old result : α} {value : Except String α}
    (read : since version first old value = .ok result) : result = old ∨ value = .ok result := by
  unfold since at read
  split at read
  · exact .inr read
  · cases read
    exact .inl rfl

/-- The lines of a job file of this schema. -/
structure HoldsJob (version : Nat) (lines : List Bytes) (job : CiJobRequest) : Prop where
  schema : jobSchema lines = .ok version
  id : lines.getD 1 [] = ascii "job_id=" ++ job.job_id
  project : lines.getD 2 [] = ascii "project=" ++ job.project_name
  ref : lines.getD 3 [] = ascii "ref_hex=" ++ hexEncode job.ref
  commit : lines.getD 4 [] = ascii "commit=" ++ job.commit_id
  client : lines.getD 5 [] = ascii "client_id=" ++ job.client_id
  queued : lines.getD 6 [] = ascii "queued_epoch=" ++ decimal job.queued_epoch_seconds.toNat
  attempt : 2 ≤ version → lines.getD 7 [] = ascii "attempt=" ++ decimal job.attempt.toNat
  labels : 3 ≤ version → lines.getD 8 [] = ascii "runs_on=" ++ formatCiLabelList job.runs_on
  policy : 4 ≤ version → lines.getD 9 []
    = ascii "auto_cancel=" ++ (if job.auto_cancel then ascii "true" else ascii "false")
  parent : 5 ≤ version → lines.getD 10 [] = ascii "parent_run_id=" ++ job.parent_run_id
  name : 5 ≤ version → lines.getD 11 [] = ascii "workflow_job=" ++ job.workflow_job
  needs : 5 ≤ version → lines.getD 12 [] = ascii "needs=" ++ dependencyList job.needs
  lock : 6 ≤ version → lines.getD 13 [] = ascii "dependency_lock_sha256=" ++ job.dependency_lock_sha256
    ∧ isValidSha256Hex job.dependency_lock_sha256

theorem ReadableJob.asOf_dependencies {job : CiJobRequest} (h : ReadableJob job) (version : Nat) :
    validDependencies (job.asOf version) := by
  have valid := h.dependencies_valid
  by_cases recent : 5 ≤ version
  · by_cases locked : 6 ≤ version
    · simpa [validDependencies, CiJobRequest.asOf, recent, locked] using valid
    · simp only [validDependencies, CiJobRequest.asOf, recent, locked, if_true, if_false,
        Bool.and_eq_true] at valid ⊢
      exact ⟨⟨⟨⟨⟨valid.1.1.1.1.1, by simp⟩, valid.1.1.1.2⟩, valid.1.1.2⟩, valid.1.2⟩, valid.2⟩
  · have locked : ¬ 6 ≤ version := by omega
    simp [validDependencies, CiJobRequest.asOf, recent, locked, validJobMembership]

/-- A readable job is read back from a file of any schema that holds it. -/
theorem parseJob_holds {content : Bytes} {lines : List Bytes} {version : Nat} {job : CiJobRequest}
    (h : ReadableJob job) (framing : frameLines content = .ok lines)
    (at_lines : HoldsJob version lines job) : parseJob content = .ok (job.asOf version) := by
  have refRead : fromHex (hexEncode job.ref) 512 = .ok job.ref := by
    simp [fromHex, hexDecode_hexEncode h.ref_short, orFail]
  have attemptRead : 2 ≤ version → parseAttempt (lines.getD 7 []) = .ok job.attempt := fun recent =>
    at_lines.attempt recent ▸ parseAttempt_decimal h.attempt_range
  have policyRead : 4 ≤ version → parseAutoCancel (lines.getD 9 []) = .ok job.auto_cancel :=
    fun recent => at_lines.policy recent ▸ parseAutoCancel_flag job.auto_cancel
  have labelsRead : 3 ≤ version → (field "runs_on=" (lines.getD 8 []) >>= fun text =>
      orFail "a CI job record has invalid runs_on labels" (parseCiLabelList text))
        = .ok (sortedUnique job.runs_on) := by
    intro recent
    rw [field_at (at_lines.labels recent)]
    simp [bind, Except.bind, parseCiLabelList_format h.labels_valid h.labels_few, orFail]
  have needsRead : 5 ≤ version → (field "needs=" (lines.getD 12 []) >>= fun text =>
      parseDependencies text) = .ok job.needs := by
    intro recent
    rw [field_at (at_lines.needs recent)]
    exact parseDependencies_list h.needs.2 h.needs.1
  have lockRead : 6 ≤ version → parseLock (lines.getD 13 []) = .ok job.dependency_lock_sha256 := by
    intro recent
    obtain ⟨line, valid⟩ := at_lines.lock recent
    simp only [parseLock, bind_ok, failIf, rejectIf_ok, pure_ok]
    exact ⟨_, field_at line, (), not_not.mpr valid, rfl⟩
  have valid : ¬ ¬ (validDependencies (job.asOf version) ∧ isValidCiId job.job_id
      ∧ isValidProjectName job.project_name ∧ isValidClientId job.client_id
      ∧ isValidObjectId job.commit_id) :=
    not_not.mpr ⟨h.asOf_dependencies version, h.id_valid, h.project_valid, h.client_valid,
      h.commit_valid⟩
  simp only [parseJob, bind_ok, pure_ok]
  exact ⟨_, framing, _, at_lines.schema, _, field_at at_lines.id, _, field_at at_lines.project,
    _, field_at at_lines.ref, _, refRead, _, field_at at_lines.commit, _, field_at at_lines.client,
    _, field_at at_lines.queued, _, parseEpoch_decimal _, _, since_either attemptRead,
    _, since_either labelsRead, _, since_either policyRead,
    _, since_either fun recent => field_at (at_lines.parent recent),
    _, since_either fun recent => field_at (at_lines.name recent), _, since_either needsRead,
    _, since_either lockRead, (), rejectIf_ok.mpr valid, rfl⟩

/-- The schema serializeJob writes. -/
def jobVersion (job : CiJobRequest) : Nat := if job.dependency_lock_sha256.isEmpty then 5 else 6

theorem ReadableJob.holds {job : CiJobRequest} (h : ReadableJob job) :
    HoldsJob (jobVersion job) (jobLines job) job := by
  obtain ⟨id, project, ref, commit, client, queued, attempt, labels, policy, parent, name, needs⟩ :=
    jobLines_at job
  refine ⟨?_, id, project, ref, commit, client, queued, fun _ => attempt, fun _ => labels,
    fun _ => policy, fun _ => parent, fun _ => name, fun _ => needs, ?_⟩
  · unfold jobVersion
    split
    · rename_i empty
      simp [jobSchema, jobLines, empty]
    · rename_i locked
      simp [jobSchema, jobLines, locked]
  · intro recent
    have locked : ¬ job.dependency_lock_sha256.isEmpty := by
      intro empty
      simp [jobVersion, empty] at recent
    refine ⟨by simp [jobLines, locked], h.lock.resolve_left ?_⟩
    intro none
    exact locked (by simp [none])

theorem asOf_jobVersion (job : CiJobRequest) : job.asOf (jobVersion job) = job.withSortedLabels := by
  unfold jobVersion
  split
  · rename_i empty
    simp [CiJobRequest.asOf, CiJobRequest.withSortedLabels, List.isEmpty_iff.mp empty]
  · rfl

/-- A readable job is read back. -/
theorem parseJob_serializeJob {job : CiJobRequest} (h : ReadableJob job) :
    parseJob (serializeJob job) = .ok job.withSortedLabels := by
  rw [← asOf_jobVersion]
  exact parseJob_holds h (frameLines_framed (by simp [jobLines]) h.clean) h.holds

/-- The file of a job in an older schema: the first lines of the current one. -/
def oldJobText (version : Nat) (job : CiJobRequest) : Bytes :=
  let count := if version = 5 then 12 else version + 5
  framed ((ascii "schema_version=" ++ decimal version) :: ((jobLines job).drop 1).take count)

/-- A file of an older schema is read as the same job. -/
theorem parseJob_old {version : Nat} {job : CiJobRequest} (h : ReadableJob job)
    (documented : 1 ≤ version ∧ version ≤ 5) :
    parseJob (oldJobText version job) = .ok (job.asOf version) := by
  have clean : ∀ line ∈ (ascii "schema_version=" ++ decimal version)
      :: ((jobLines job).drop 1).take (if version = 5 then 12 else version + 5),
      newline ∉ line := by
    intro line member
    rcases List.mem_cons.mp member with rfl | later
    · exact key_clean (by decide) (decimal_avoids (by decide))
    · exact h.clean line (List.mem_of_mem_drop (List.mem_of_mem_take later))
  apply parseJob_holds h (frameLines_framed (List.cons_ne_nil _ _) clean)
  have versions : version = 1 ∨ version = 2 ∨ version = 3 ∨ version = 4 ∨ version = 5 := by omega
  rcases versions with rfl | rfl | rfl | rfl | rfl
  all_goals
    refine ⟨?_, rfl, rfl, rfl, rfl, rfl, rfl, ?_, ?_, ?_, ?_, ?_, ?_, ?_⟩
    · rfl
    all_goals
      intro recent
      first
      | rfl
      | exact absurd recent (by decide)

theorem attempt_range {value : UInt64} (range : ¬ (value < 1 ∨ value > 1000)) :
    1 ≤ (UInt32.ofNat value.toNat).toNat ∧ (UInt32.ofNat value.toNat).toNat ≤ 1000 := by
  simp only [UInt64.lt_iff_toNat_lt, gt_iff_lt, not_or, not_lt] at range
  have low : (1 : UInt64).toNat = 1 := rfl
  have high : (1000 : UInt64).toNat = 1000 := rfl
  rw [low, high] at range
  have small : value.toNat % 2 ^ 32 = value.toNat := Nat.mod_eq_of_lt (by omega)
  rw [UInt32.toNat_ofNat', small]
  exact range

theorem parseAttempt_range {line : Bytes} {n : UInt32} (h : parseAttempt line = .ok n) :
    1 ≤ n.toNat ∧ n.toNat ≤ 1000 := by
  simp only [parseAttempt, bind_ok, failIf, rejectIf_ok, pure_ok] at h
  obtain ⟨text, _, value, _, _, range, rfl⟩ := h
  exact attempt_range range

theorem parseCiLabelList_valid {text : Bytes} {labels : List Bytes}
    (h : parseCiLabelList text = some labels) :
    (∀ label ∈ labels, isValidCiLabel label) ∧ (sortedUnique labels).length ≤ kMaximumCiLabels := by
  unfold parseCiLabelList at h
  split at h
  · cases h
    exact ⟨by simp, by decide⟩
  · simp only at h
    split at h
    · cases h
    · rename_i all
      split at h
      · cases h
      · rename_i few
        cases h
        simp only [Bool.not_eq_true', Bool.not_eq_false] at all
        constructor
        · intro label member
          exact List.all_eq_true.mp all label (mem_sortedUnique.mp member)
        · rw [sortedUnique_idem]
          exact Nat.not_lt.mp few

theorem parseCiLabelList_sorted {text : Bytes} {labels : List Bytes}
    (h : parseCiLabelList text = some labels) : sortedUnique labels = labels := by
  unfold parseCiLabelList at h
  split at h
  · cases h
    rfl
  · simp only at h
    split at h
    · cases h
    · split at h
      · cases h
      · cases h
        exact sortedUnique_idem _

theorem fromHex_length {token bytes : Bytes} {cap : Nat} (h : fromHex token cap = .ok bytes) :
    bytes.length ≤ cap := by
  unfold fromHex orFail at h
  split at h
  · rename_i decoded
    cases h
    exact hexDecode_length decoded
  · cases h

theorem orFail_ok {α : Type} {message : String} {value : Option α} {a : α} :
    orFail message value = .ok a ↔ value = some a := by
  cases value <;> simp [orFail, fail]

/-- Whatever the parser gives is within its bounds, its labels sorted. -/
theorem parseJob_readable {content : Bytes} {job : CiJobRequest} (h : parseJob content = .ok job) :
    ReadableJob job ∧ job.withSortedLabels = job := by
  simp only [parseJob, bind_ok, pure_ok, failIf, rejectIf_ok] at h
  obtain ⟨lines, _, version, _, job_id, _, project_name, _, refHex, _, ref, refRead, commit_id, _,
    client_id, _, queuedText, _, queued, _, attempt, attemptRead, runs_on, labelsRead, auto_cancel,
    _, parent_run_id, _, workflow_job, _, needs, _, lock, _, _, valid, rfl⟩ := h
  obtain ⟨dependencies, id, project, client, commit⟩ := not_not.mp valid
  have range : 1 ≤ attempt.toNat ∧ attempt.toNat ≤ 1000 := by
    rcases since_ok attemptRead with rfl | read
    · decide
    · exact parseAttempt_range read
  have labels : (∀ label ∈ runs_on, isValidCiLabel label)
      ∧ (sortedUnique runs_on).length ≤ kMaximumCiLabels ∧ sortedUnique runs_on = runs_on := by
    rcases since_ok labelsRead with rfl | read
    · exact ⟨by simp, by decide, rfl⟩
    · simp only [bind_ok, orFail_ok] at read
      obtain ⟨text, _, listed⟩ := read
      obtain ⟨all, few⟩ := parseCiLabelList_valid listed
      exact ⟨all, few, parseCiLabelList_sorted listed⟩
  constructor
  · exact ⟨id, project, client, commit, dependencies, fromHex_length refRead, range, labels.1,
      labels.2.1⟩
  · simp only [CiJobRequest.withSortedLabels, labels.2.2]

end CkGit.Ci
