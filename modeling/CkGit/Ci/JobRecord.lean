import CkGit.Ci.RunRecord

/-!
The file of a queued or claimed job: serializeJob and parseJob
(src/common/ci_store.cpp). Schema 6 is a job with a dependency lock.
-/
namespace CkGit.Ci
open CkGit.Base

/-- The place in a workflow, the dependency lock and the needs: distinct runs of other jobs. -/
def validDependencies (job : CiJobRequest) : Bool :=
  validJobMembership job.job_id job.parent_run_id job.workflow_job
    && (job.dependency_lock_sha256.isEmpty || isValidSha256Hex job.dependency_lock_sha256)
    && job.needs.length ≤ kMaximumCiJobs
    && !(job.parent_run_id.isEmpty && !job.needs.isEmpty)
    && job.needs.all (fun id => isValidCiId id && id != job.job_id && id != job.parent_run_id)
    && job.needs.Nodup

/-- The needs of a job in one field. -/
def dependencyList (ids : List Bytes) : Bytes := joined ids

def checkDependencies (ids : List Bytes) (held : Nat) : Except String (List Bytes) := do
  match ids with
  | [] => return []
  | id :: rest =>
    failIf (¬ isValidCiId id ∨ held ≥ kMaximumCiJobs) "invalid dependency IDs"
    failIf (rest = [[]]) "empty dependency ID"
    return id :: (← checkDependencies rest (held + 1))

/-- The needs of a job; an empty field has none. -/
def parseDependencies (text : Bytes) : Except String (List Bytes) :=
  if text.isEmpty then .ok [] else checkDependencies (text.splitOn comma) 0

/-- The lines of a job record, in the order of serializeJob. -/
def jobLines (job : CiJobRequest) : List Bytes :=
  [if job.dependency_lock_sha256.isEmpty then ascii "schema_version=5"
      else ascii "schema_version=6",
    ascii "job_id=" ++ job.job_id,
    ascii "project=" ++ job.project_name,
    ascii "ref_hex=" ++ hexEncode job.ref,
    ascii "commit=" ++ job.commit_id,
    ascii "client_id=" ++ job.client_id,
    ascii "queued_epoch=" ++ decimal job.queued_epoch_seconds.toNat,
    ascii "attempt=" ++ decimal job.attempt.toNat,
    ascii "runs_on=" ++ formatCiLabelList job.runs_on,
    ascii "auto_cancel=" ++ (if job.auto_cancel then ascii "true" else ascii "false"),
    ascii "parent_run_id=" ++ job.parent_run_id,
    ascii "workflow_job=" ++ job.workflow_job,
    ascii "needs=" ++ dependencyList job.needs]
    ++ (if job.dependency_lock_sha256.isEmpty then []
      else [ascii "dependency_lock_sha256=" ++ job.dependency_lock_sha256])

/-- serializeJob of src/common/ci_store.cpp. -/
def serializeJob (job : CiJobRequest) : Bytes := framed (jobLines job)

/-- Schemas 1 to 6 and their line counts. -/
def jobSchema (lines : List Bytes) : Except String Nat :=
  let first := lines.headD []
  if first = ascii "schema_version=6" ∧ lines.length = 14 then .ok 6
  else if first = ascii "schema_version=5" ∧ lines.length = 13 then .ok 5
  else if first = ascii "schema_version=4" ∧ lines.length = 10 then .ok 4
  else if first = ascii "schema_version=3" ∧ lines.length = 9 then .ok 3
  else if first = ascii "schema_version=2" ∧ lines.length = 8 then .ok 2
  else if first = ascii "schema_version=1" ∧ lines.length = 7 then .ok 1
  else fail "a CI job record has the wrong shape"

/-- An attempt from 1 to 1000. -/
def parseAttempt (line : Bytes) : Except String UInt32 := do
  let attempt ← parseEpoch (← field "attempt=" line)
  failIf (attempt < 1 ∨ attempt > 1000) "a CI job record has an invalid attempt"
  return .ofNat attempt.toNat

def parseAutoCancel (line : Bytes) : Except String Bool := do
  let flag ← field "auto_cancel=" line
  failIf (flag ≠ ascii "true" ∧ flag ≠ ascii "false") "invalid auto_cancel policy"
  return flag == ascii "true"

/-- The digest of a dependency lock. -/
def parseLock (line : Bytes) : Except String Bytes := do
  let lock ← field "dependency_lock_sha256=" line
  failIf (¬ isValidSha256Hex lock) "invalid dependency lock identity"
  return lock

/-- parseJob of src/common/ci_store.cpp: later schemas have more lines. -/
def parseJob (content : Bytes) : Except String CiJobRequest := do
  let lines ← frameLines content
  let version ← jobSchema lines
  let line := fun index => lines.getD index []
  let job_id ← field "job_id=" (line 1)
  let project_name ← field "project=" (line 2)
  let ref ← fromHex (← field "ref_hex=" (line 3)) 512
  let commit_id ← field "commit=" (line 4)
  let client_id ← field "client_id=" (line 5)
  let queued_epoch_seconds ← parseEpoch (← field "queued_epoch=" (line 6))
  let attempt ← since version 2 1 (parseAttempt (line 7))
  let runs_on ← since version 3 [] do
    orFail "a CI job record has invalid runs_on labels"
      (parseCiLabelList (← field "runs_on=" (line 8)))
  let auto_cancel ← since version 4 true (parseAutoCancel (line 9))
  let parent_run_id ← since version 5 [] (field "parent_run_id=" (line 10))
  let workflow_job ← since version 5 [] (field "workflow_job=" (line 11))
  let needs ← since version 5 [] do parseDependencies (← field "needs=" (line 12))
  let dependency_lock_sha256 ← since version 6 [] (parseLock (line 13))
  let job : CiJobRequest :=
    { job_id, project_name, ref, commit_id, client_id, queued_epoch_seconds, attempt, runs_on,
      auto_cancel, parent_run_id, workflow_job, needs, dependency_lock_sha256 }
  failIf (¬ (validDependencies job ∧ isValidCiId job.job_id
      ∧ isValidProjectName job.project_name ∧ isValidClientId job.client_id
      ∧ isValidObjectId job.commit_id)) "a CI job record contains invalid data"
  return job

end CkGit.Ci
