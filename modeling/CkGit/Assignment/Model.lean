import CkGit.Ci.FinishReport
import CkGit.Listings.Model
import CkGit.Runner.Commands
import CkGit.Store.Records
import CkGit.Vm.Frames
import CkGit.Workflow.Parse

/-!
A job on its way to a runner and on to its guest: formatCiClaimResponse and
parseCiClaimResponse (src/common/ci_runner_protocol.cpp), formatCiVmAssignment and
parseCiVmAssignment (src/common/ci_vm_protocol.cpp). The workflow travels as its
text and is parsed again wherever it arrives.
-/
namespace CkGit.Assignment
open CkGit.Base CkGit.Ci CkGit.Workflow
open CkGit.Listings (isValidReleaseTag)
open CkGit.Runner (isLeaseToken)
open CkGit.Store (CiLease)
open CkGit.Vm (kCiVmControlPayloadMax)

def kMaximumCiClaimResponseBytes : Nat := 256 * 1024

structure CiResolvedSister where
  name : Bytes
  commit : Bytes
  checkout : CiCheckout := {}
  deriving DecidableEq

structure CiPreparedJob where
  job : CiJobRequest
  workflow_text : Bytes
  workflow : CiWorkflow
  is_release : Bool := false
  release_tag : Bytes := []
  is_default_branch : Bool := false
  sisters : List CiResolvedSister := []
  deriving DecidableEq

structure CiRemotePolicy where
  timeout_seconds : UInt32
  max_log_bytes : UInt64
  artifact_max_bytes : UInt64
  allow_network : Bool
  lease_seconds : UInt32
  deriving DecidableEq

structure CiRemoteJob where
  prepared : CiPreparedJob
  token : Bytes
  policy : CiRemotePolicy
  deriving DecidableEq

structure CiVmAssignment where
  prepared : CiPreparedJob
  policy : CiRemotePolicy
  deriving DecidableEq

def sisterLine (sister : CiResolvedSister) : Bytes :=
  ascii "sister=" ++ (sister.name ++ space :: sister.commit)

/-- The release tag as it is sent: empty where the job is no release. -/
def CiPreparedJob.sentTag (prepared : CiPreparedJob) : Bytes :=
  if prepared.is_release then prepared.release_tag else []

/-- The lines before the sisters. -/
def claimHeader (prepared : CiPreparedJob) (token : Bytes) (policy : CiRemotePolicy) (protocol_version : Nat) :
    List Bytes :=
  [if protocol_version = 2 then ascii "job2" else ascii "job",
    ascii "job_id=" ++ prepared.job.job_id,
    ascii "project=" ++ prepared.job.project_name,
    ascii "ref_hex=" ++ hexEncode prepared.job.ref,
    ascii "commit=" ++ prepared.job.commit_id,
    ascii "attempt=" ++ decimal prepared.job.attempt.toNat,
    ascii "token=" ++ token,
    ascii "lease_seconds=" ++ decimal policy.lease_seconds.toNat,
    ascii "release_tag=" ++ prepared.sentTag,
    ascii "default_branch=" ++ flag prepared.is_default_branch,
    ascii "timeout_seconds=" ++ decimal policy.timeout_seconds.toNat,
    ascii "max_log_bytes=" ++ decimal policy.max_log_bytes.toNat,
    ascii "artifact_max_bytes=" ++ decimal policy.artifact_max_bytes.toNat,
    ascii "allow_network=" ++ flag policy.allow_network,
    ascii "sister_count=" ++ decimal prepared.sisters.length]

/-- The lines after the sisters. -/
def claimTail (prepared : CiPreparedJob) (protocol_version : Nat) : List Bytes :=
  (ascii "workflow_hex=" ++ hexEncode prepared.workflow_text)
    :: if protocol_version = 2 then
        [ascii "parent_run_id=" ++ prepared.job.parent_run_id,
          ascii "workflow_job=" ++ prepared.job.workflow_job]
      else []

def claimLines (prepared : CiPreparedJob) (token : Bytes) (policy : CiRemotePolicy) (protocol_version : Nat) :
    List Bytes :=
  claimHeader prepared token policy protocol_version
    ++ (prepared.sisters.map sisterLine ++ claimTail prepared protocol_version)

def formatCiClaimResponse (prepared : CiPreparedJob) (lease : CiLease) (policy : CiRemotePolicy)
    (protocol_version : Nat) : Except String Bytes := do
  rejectIf (protocol_version ≠ 1 ∧ protocol_version ≠ 2) "unsupported runner claim protocol"
  rejectIf (protocol_version = 1 ∧ ¬ prepared.job.parent_run_id.isEmpty)
    "protocol 1 cannot carry a child assignment"
  return framed (claimLines prepared lease.token policy protocol_version)

def decodeHex (what : String) (text : Bytes) (cap : Nat) : Except String Bytes :=
  match hexDecode text cap with
  | some decoded => .ok decoded
  | none => .error ("malformed " ++ what)

/-- The name up to the first space, and what follows it. -/
def parseSister (line : Bytes) : Except String CiResolvedSister := do
  let value ← finishField "sister=" line
  rejectIf (space ∉ value) "malformed sister"
  let name := value.takeWhile (· != space)
  let commit := (value.dropWhile (· != space)).drop 1
  rejectIf (¬ (isValidProjectName name ∧ isValidObjectId commit)) "invalid sister"
  return { name, commit }

/-- The message of a rejected workflow. -/
def said (error : Yaml.YamlError) : String := asMessage (error.what kCiWorkflowYamlDialect)

/-- The job and the workflow of an assignment: a child is one job of a version 2 workflow. -/
def assignWorkflow (v2 : Bool) (job : CiJobRequest) (workflow : CiWorkflow) :
    Except String (CiJobRequest × CiWorkflow) :=
  if workflow.version = 2 then do
    rejectIf (¬ v2 ∨ ¬ isValidCiId job.parent_run_id ∨ job.parent_run_id = job.job_id ∨ job.workflow_job.isEmpty)
      "distributed workflow requires a protocol-2 child assignment"
    let selected ← selectCiWorkflowJob workflow job.workflow_job
    return ({ job with runs_on := selected.runs_on }, selected)
  else do
    rejectIf (¬ job.parent_run_id.isEmpty ∨ ¬ job.workflow_job.isEmpty)
      "legacy workflow cannot carry a child assignment"
    return (job, workflow)

/-- A sister with the history settings the workflow declares for it. -/
def withCheckout (declared : List CiSister) (sister : CiResolvedSister) : CiResolvedSister :=
  declared.foldl
    (fun sister own => if own.name = sister.name then { sister with checkout := own.checkout } else sister)
    sister

def parseCiClaimResponse (response : Bytes) : Except String (Option CiRemoteJob) :=
  if response = ascii "none\n" then .ok none
  else do
    rejectIf (response.length > kMaximumCiClaimResponseBytes) "claim response too large"
    let lines ← splitLines response
    let line := fun index => lines.getD index []
    let v2 := lines.head? == some (ascii "job2")
    let fixed := if v2 then 18 else 16
    rejectIf (lines.length < fixed ∨ ¬ v2 ∧ line 0 ≠ ascii "job") "malformed claim response"
    let job_id ← finishField "job_id=" (line 1)
    let project_name ← finishField "project=" (line 2)
    let ref ← decodeHex "ref" (← finishField "ref_hex=" (line 3)) 512
    let commit_id ← finishField "commit=" (line 4)
    let attempt ← number "attempt" (← finishField "attempt=" (line 5))
    let token ← finishField "token=" (line 6)
    let lease_seconds ← number "lease" (← finishField "lease_seconds=" (line 7))
    let release_tag ← finishField "release_tag=" (line 8)
    let default_branch ← finishField "default_branch=" (line 9)
    let timeout_seconds ← number "timeout" (← finishField "timeout_seconds=" (line 10))
    let max_log_bytes ← number "log cap" (← finishField "max_log_bytes=" (line 11))
    let artifact_max_bytes ← number "artifact cap" (← finishField "artifact_max_bytes=" (line 12))
    let allow_network ← finishField "allow_network=" (line 13)
    let sisters ← number "sister count" (← finishField "sister_count=" (line 14))
    rejectIf (sisters > kMaximumCiSisters ∨ lines.length ≠ fixed + sisters) "malformed sister list"
    let resolved ← ((lines.drop 15).take sisters).mapM parseSister
    let workflow_text ← decodeHex "workflow" (← finishField "workflow_hex=" (line (15 + sisters)))
      kMaximumCiWorkflowBytes
    let is_release := !release_tag.isEmpty
    rejectIf (¬ isValidCiId job_id ∨ ¬ isValidProjectName project_name ∨ ¬ isValidObjectId commit_id
      ∨ ¬ isLeaseToken token ∨ (is_release ∧ ¬ isValidReleaseTag release_tag))
      "claim response contains invalid data"
    let parsed ← (parseCiWorkflow workflow_text).mapError said
    let parent_run_id ← (if v2 then finishField "parent_run_id=" (line (16 + sisters)) else .ok [])
    let workflow_job ← (if v2 then finishField "workflow_job=" (line (17 + sisters)) else .ok [])
    let (job, workflow) ← assignWorkflow v2
      { job_id, project_name, ref, commit_id, client_id := ascii "remote", attempt := .ofNat attempt
        parent_run_id, workflow_job } parsed
    let prepared : CiPreparedJob :=
      { job, workflow_text, workflow, is_release, release_tag
        is_default_branch := default_branch == ascii "1"
        sisters := resolved.map (withCheckout workflow.sisters) }
    let policy : CiRemotePolicy :=
      { timeout_seconds := .ofNat timeout_seconds, max_log_bytes := .ofNat max_log_bytes
        artifact_max_bytes := .ofNat artifact_max_bytes, allow_network := allow_network == ascii "1"
        lease_seconds := .ofNat lease_seconds }
    return some { prepared, token, policy }

def unusableToken : Bytes := List.replicate 32 '0'.toUInt8

/-- The lease is held and renewed only by the host. -/
def CiRemotePolicy.safe (policy : CiRemotePolicy) : CiRemotePolicy :=
  { policy with allow_network := false, lease_seconds := 1 }

def formatCiVmAssignment (prepared : CiPreparedJob) (policy : CiRemotePolicy) : Except String Bytes := do
  let unusable : CiLease := { runner := [], token := unusableToken, expires_epoch_seconds := 0 }
  let payload ← formatCiClaimResponse prepared unusable policy.safe 2
  rejectIf (payload.length > kCiVmControlPayloadMax) "VM assignment too large"
  return payload

def parseCiVmAssignment (payload : Bytes) : Except String CiVmAssignment := do
  rejectIf (payload.length > kCiVmControlPayloadMax) "VM assignment too large"
  match ← parseCiClaimResponse payload with
  | none => .error "invalid or noncanonical VM assignment"
  | some parsed => do
    rejectIf (parsed.token ≠ unusableToken ∨ parsed.policy.allow_network ∨ parsed.policy.lease_seconds ≠ 1)
      "invalid or noncanonical VM assignment"
    let written ← formatCiVmAssignment parsed.prepared parsed.policy
    rejectIf (written ≠ payload) "invalid or noncanonical VM assignment"
    return { prepared := parsed.prepared, policy := parsed.policy }

end CkGit.Assignment
