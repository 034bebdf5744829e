import CkGit.Store.Files
import CkGit.Workflow.Recording

/-!
The records of the queue beside jobs and runs: leases and the journal of a
distributed workflow (serializeLease, parseLease, validateWorkflowGroup,
serializeWorkflowGroup and parseWorkflowGroup in src/common/ci_store.cpp), and
the readers that treat an unreadable record as missing.
-/
namespace CkGit.Store
open CkGit.Base CkGit.Ci

structure CiLease where
  runner : Bytes
  token : Bytes
  expires_epoch_seconds : UInt64
  deriving DecidableEq

structure CiClaim where
  job : CiJobRequest
  lease : CiLease
  deriving DecidableEq

def isValidLeaseToken (token : Bytes) : Bool := token.length == 32 && isLowercaseHex token

def leaseLines (lease : CiLease) : List Bytes :=
  [ascii "schema_version=1",
    ascii "runner=" ++ lease.runner,
    ascii "token=" ++ lease.token,
    ascii "expires_epoch=" ++ decimal lease.expires_epoch_seconds.toNat]

def serializeLease (lease : CiLease) : Bytes := framed (leaseLines lease)

def parseLease (content : Bytes) : Except String CiLease := do
  let lines ← frameLines content
  failIf (lines.length ≠ 4 ∨ lines.headD [] ≠ ascii "schema_version=1") "a CI lease has the wrong shape"
  let runner ← field "runner=" (lines.getD 1 [])
  let token ← field "token=" (lines.getD 2 [])
  let expires_epoch_seconds ← parseEpoch (← field "expires_epoch=" (lines.getD 3 []))
  failIf (¬ (isValidClientId runner ∧ isValidLeaseToken token)) "a CI lease contains invalid data"
  return { runner, token, expires_epoch_seconds }

def kMaximumWorkflowGroupBytes : Nat := 1024 * 1024

structure WorkflowGroup where
  parent : CiJobRequest
  children : List CiJobRequest
  deriving DecidableEq

/-- The run a job belongs to: its own, or the workflow it is a child of. -/
def jobGroup (job : CiJobRequest) : Bytes :=
  if job.parent_run_id.isEmpty then job.job_id else job.parent_run_id

/-- Whether the child differs from its parent, or repeats an id or a name. -/
def inconsistentChild (parent child : CiJobRequest) (ids names : List Bytes) : Prop :=
  child.parent_run_id ≠ parent.job_id ∨ child.project_name ≠ parent.project_name
    ∨ child.commit_id ≠ parent.commit_id ∨ child.ref ≠ parent.ref
    ∨ child.client_id ≠ parent.client_id ∨ child.auto_cancel ≠ parent.auto_cancel
    ∨ child.attempt ≠ 1 ∨ child.job_id ∈ ids ∨ child.workflow_job ∈ names

instance (parent child : CiJobRequest) (ids names : List Bytes) :
    Decidable (inconsistentChild parent child ids names) := by
  unfold inconsistentChild
  infer_instance

def checkChildren (parent : CiJobRequest) (children : List CiJobRequest) (ids names : List Bytes) :
    Except String Unit :=
  match children with
  | [] => .ok ()
  | child :: rest => do
    let _ ← parseJob (serializeJob child)
    failIf (inconsistentChild parent child ids names) "inconsistent distributed workflow child"
    checkChildren parent rest (child.job_id :: ids) (child.workflow_job :: names)

/-- One pass over the children: those whose needs are ready become ready. -/
def readyPass (children : List CiJobRequest) (ready : List Bytes) : List Bytes :=
  children.foldl
    (fun ready child =>
      if child.job_id ∉ ready ∧ ∀ id ∈ child.needs, id ∈ ready then child.job_id :: ready else ready)
    ready

/-- Passes until every child is ready; a pass that adds none stops it. -/
def dependencyOrder (children : List CiJobRequest) (passes : Nat) (ready : List Bytes) :
    Except String Unit :=
  let cycle := "distributed workflow contains a dependency cycle"
  if ready.length = children.length then .ok ()
  else match passes with
  | 0 => fail cycle
  | passes + 1 =>
    let next := readyPass children ready
    if next.length = ready.length then fail cycle else dependencyOrder children passes next

def validateWorkflowGroup (group : WorkflowGroup) : Except String Unit := do
  let _ ← parseJob (serializeJob group.parent)
  failIf (¬ group.parent.parent_run_id.isEmpty ∨ group.children.isEmpty
      ∨ group.children.length > kMaximumCiJobs)
    "invalid distributed workflow parent or child count"
  checkChildren group.parent group.children [] []
  failIf (∃ child ∈ group.children, ∃ dependency ∈ child.needs,
      dependency ∉ group.children.map (·.job_id)) "distributed dependency is not a sibling"
  dependencyOrder group.children group.children.length []

def groupLines (group : WorkflowGroup) : List Bytes :=
  ascii "schema_version=1" :: (ascii "parent_hex=" ++ hexEncode (serializeJob group.parent))
    :: group.children.map fun child => ascii "child_hex=" ++ hexEncode (serializeJob child)

def serializeWorkflowGroup (group : WorkflowGroup) : Except String Bytes := do
  failIf ((framed (groupLines group)).length > kMaximumWorkflowGroupBytes)
    "distributed workflow exceeds its record limit"
  return framed (groupLines group)

def parseGroupJob (key : String) (line : Bytes) : Except String CiJobRequest := do
  parseJob (← fromHex (← field key line) kMaximumCiRunRecordBytes)

def parseWorkflowGroup (bytes : Bytes) : Except String WorkflowGroup := do
  let lines ← frameLines bytes
  failIf (lines.length < 3 ∨ lines.length > kMaximumCiJobs + 2
      ∨ lines.headD [] ≠ ascii "schema_version=1") "invalid distributed workflow record"
  let parent ← parseGroupJob "parent_hex=" (lines.getD 1 [])
  let children ← (lines.drop 2).mapM (parseGroupJob "child_hex=")
  validateWorkflowGroup { parent, children }
  return { parent, children }

variable (s : Files)

/-- readJobAt of a queue directory. -/
def readJobAt (directory : Directory) (name : Bytes) : Option CiJobRequest :=
  s.readAs (.queue directory name) kMaximumCiRunRecordBytes parseJob

def readLeaseAt (job_id : Bytes) : Option CiLease :=
  s.readAs (.queue .leases (ini job_id)) 4096 parseLease

def loadCiRun (project_name run_id : Bytes) : Option CiRunRecord :=
  if isValidProjectName project_name ∧ isValidCiId run_id then
    s.readAs (.run project_name run_id .record) kMaximumCiRunRecordBytes parseRun
  else none

def loadCiClaim (job_id : Bytes) : Option CiClaim :=
  if isValidCiId job_id then do
    let job ← readJobAt s .working (ini job_id)
    let lease ← readLeaseAt s job_id
    some { job, lease }
  else none

/-- openRunDir finds the run's directory. -/
def hasRunDir (project_name run_id : Bytes) : Bool :=
  (s.get (.run project_name run_id .directory)).isSome

/-- Whether a marker can be read; one that is too large throws. -/
def marked (project_name run_id : Bytes) (marker : RunFile) (cap : Nat) : Except String Bool :=
  (s.readCapped (.run project_name run_id marker) cap).map (·.isSome)

def isCiCancelRequested (project_name run_id : Bytes) : Bool :=
  let requested : Except String Bool := do
    if hasRunDir s project_name run_id then
      if ← marked s project_name run_id .cancel 64 then return true
      -- Exactly one parent marker is read.
      else match loadCiRun s project_name run_id with
      | none => return false
      | some run =>
        if run.parent_run_id.isEmpty ∨ ¬ hasRunDir s project_name run.parent_run_id then return false
        else marked s project_name run.parent_run_id .cancel 64
    else return false
  isValidProjectName project_name && isValidCiId run_id && requested.toOption.getD false

end CkGit.Store
