import CkGit.Store.Records

/-!
The operations of the CI queue on one job (src/common/ci_store.cpp): cancelling
and superseding, putting a claimed job back, queueing a job. All of them hold
the spool lock from their first read to their last write, so nothing runs
between these but a crash may end them after any write.
-/
namespace CkGit.Store
open CkGit.Base CkGit.Ci Prog
open CkGit.Workflow (queuedRecord previewRecord)

variable (host : Host)

def writeFile (path : Path) (bytes : Bytes) : Op Unit :=
  modify (·.put path { bytes, modified := host.millis })

def unlink (path : Path) : Op Unit := modify (·.remove path)

def renameFile (source target : Path) : Op Unit := modify (·.rename source target)

def ensureRunDir (project_name run_id : Bytes) : Op Unit := do
  let present ← gets (hasRunDir · project_name run_id)
  whenever (¬ present) (writeFile host (.run project_name run_id .directory) [])

def prepareCiRunDirectory (project_name run_id : Bytes) : Op Unit := do
  ofExcept (failIf (¬ isValidProjectName project_name) "invalid project name for a CI run")
  ofExcept (failIf (¬ isValidCiId run_id) "invalid CI run id")
  ensureRunDir host project_name run_id

def writeCiRunRecord (record : CiRunRecord) : Op Unit := do
  let content ← ofExcept (runRecordText record)
  ensureRunDir host record.project_name record.run_id
  writeFile host (.run record.project_name record.run_id .record) content

def requestCiCancel (project_name run_id : Bytes) : Op Bool := do
  ofExcept (failIf (¬ (isValidProjectName project_name ∧ isValidCiId run_id))
    "refusing to cancel an invalid CI run")
  let present ← gets (hasRunDir · project_name run_id)
  if ¬ present then return false
  else do
    let committed ← reads (marked · project_name run_id .outputsCommitted 128)
    whenever (¬ committed) (writeFile host (.run project_name run_id .cancel) (ascii "cancel\n"))
    return true

def clearCiCancel (project_name run_id : Bytes) : Op Unit :=
  whenever (isValidProjectName project_name ∧ isValidCiId run_id)
    (unlink (.run project_name run_id .cancel))

/-- What cancelQueuedJob records of a job. -/
def settledRecord (s : Files) (job : CiJobRequest) (detail : Bytes) (terminal : CiRunStatus) :
    CiRunRecord :=
  { (loadCiRun s job.project_name job.job_id).getD (queuedRecord job) with
    run_id := job.job_id
    parent_run_id := job.parent_run_id
    workflow_job := job.workflow_job
    project_name := job.project_name
    ref := job.ref
    commit_id := job.commit_id
    attempt := job.attempt
    status := terminal
    finished_epoch_seconds := host.now
    heartbeat_epoch_seconds := host.now
    detail }

def cancelQueuedJob (job : CiJobRequest) (detail : Bytes) (terminal : CiRunStatus) : Op Unit := do
  let record ← gets fun s => settledRecord host s job detail terminal
  prepareCiRunDirectory host job.project_name job.job_id
  writeCiRunRecord host record
  unlink (.queue .spool (ini job.job_id))

/-- The parent of a workflow that ended without its outputs being committed. -/
def unpublishedWorkflow (s : Files) (project id : Bytes) : Except String (Option CiJobRequest) :=
  match loadCiRun s project id with
  | none => return none
  | some record => do
    if ¬ record.parent_run_id.isEmpty ∨ ciRunStatusIsActive record.status
        ∨ (← s.readCapped (.run project id .outputsCommitted) 128).isSome then return none
    else match ← s.readCapped (.run project id .workflow) kMaximumWorkflowGroupBytes with
    | none => return none
    | some bytes =>
      let group ← parseWorkflowGroup bytes
      failIf (group.parent.job_id ≠ id ∨ group.parent.project_name ≠ project
          ∨ group.parent.commit_id ≠ record.commit_id ∨ group.parent.ref ≠ record.ref)
        "unpublished workflow identity mismatch"
      return some group.parent

def listCiUnpublishedWorkflows (s : Files) : Except String (List CiJobRequest) := do
  let found ← s.runs.mapM fun (project, id) => unpublishedWorkflow s project id
  return found.filterMap id

def sameRef (a b : CiJobRequest) : Prop := a.project_name = b.project_name ∧ a.ref = b.ref

instance (a b : CiJobRequest) : Decidable (sameRef a b) := by
  unfold sameRef
  infer_instance

def supersededBy (id : Bytes) : Bytes := ascii "superseded by run " ++ id

/-- The unpublished workflows a newer request of their ref cancels. -/
def cancelUnpublished (request : CiJobRequest) : Op Unit := do
  let parents ← reads listCiUnpublishedWorkflows
  forEach parents fun parent =>
    whenever (sameRef parent request ∧ parent.job_id < jobGroup request) do
      let _ ← requestCiCancel host parent.project_name parent.job_id
      return ()

/-- What a request does to one other job of its ref. -/
def supersedeJob (request : CiJobRequest) (directory : Directory) (old : CiJobRequest) : Op Unit := do
  whenever (request.auto_cancel ∧ jobGroup old < jobGroup request ∧ ¬ old.parent_run_id.isEmpty) do
    let _ ← requestCiCancel host old.project_name old.parent_run_id
    return ()
  if jobGroup request < jobGroup old then
    whenever old.auto_cancel (cancelQueuedJob host request (supersededBy old.job_id) .cancelled)
  else if ¬ request.auto_cancel then return ()
  else if directory = .spool then
    cancelQueuedJob host old (supersededBy request.job_id) .cancelled
  else do
    let record ← gets (loadCiRun · old.project_name old.job_id)
    whenever (∀ held ∈ record, ciRunStatusIsActive held.status) do
      let _ ← requestCiCancel host old.project_name old.job_id
      return ()

def supersedeEntry (request : CiJobRequest) (directory : Directory) (name : Bytes) : Op Unit := do
  match ← gets (readJobAt · directory name) with
  | none => return ()
  | some old =>
    whenever (sameRef old request ∧ old.job_id ≠ request.job_id ∧ jobGroup old ≠ jobGroup request)
      (supersedeJob host request directory old)

def supersedeCiJobs (request : CiJobRequest) : Op Unit :=
  whenever ((ascii "refs/heads/").isPrefixOf request.ref) do
    whenever request.auto_cancel (cancelUnpublished host request)
    forEach [.spool, .working] fun directory => do
      let names ← gets (·.names directory)
      forEach ((host.order names).filter isIni) (supersedeEntry host request directory)

/-- Whether the path is a file below a directory of the run. -/
def inRun (project_name run_id : Bytes) (below : RunFile → Bool) (path : Path) : Bool :=
  match path with
  | .run project id file => project == project_name && id == run_id && below file
  | .queue .. => false

/-- std::filesystem::remove_all of one directory of a run. -/
def removeAll (project_name run_id : Bytes) (below : RunFile → Bool) : Op Unit := do
  let paths ← gets (·.paths)
  forEach (paths.filter (inRun project_name run_id below)) unlink

/-- The step logs of an attempt renamed to attempt-<n>/. -/
def logsAside (project_name run_id : Bytes) (attempt : Nat) (s : Files) : Files :=
  s.paths.foldl
    (fun t path =>
      match path with
      | .run project id (.log index) =>
        if project = project_name ∧ id = run_id then
          t.rename path (.run project id (.aside attempt index))
        else t
      | _ => t)
    s

def resetRunForRequeue (job : CiJobRequest) (lost_attempt : UInt32) (detail : Bytes) : Op Unit :=
  bestEffort do
    let project := job.project_name
    let id := job.job_id
    prepareCiRunDirectory host project id
    removeAll project id fun file =>
      match file with
      | .aside attempt _ => attempt == lost_attempt.toNat
      | _ => false
    modify (logsAside project id lost_attempt.toNat)
    removeAll project id (· matches .artifact _)
    removeAll project id (· matches .incoming _)
    writeCiRunRecord host
      { queuedRecord job with detail := detail.take kMaximumCiDetailBytes }

inductive RequeueOutcome where
  | requeued
  | failed
  | cancelled
  | gone
  deriving DecidableEq, Repr

def runnerText (runner : Bytes) : Bytes :=
  if runner.isEmpty then ascii "its runner" else ascii "runner " ++ runner

def gaveUpText (runner : Bytes) (attempts : UInt32) : Bytes :=
  runnerText runner ++ ascii " was lost; gave up after " ++ decimal attempts.toNat
    ++ ascii " attempt" ++ (if attempts = 1 then [] else ascii "s")

def requeuedText (runner : Bytes) (enforce_limit : Bool) (attempt : UInt32) : Bytes :=
  ascii "requeued: " ++ runnerText runner
    ++ (if enforce_limit then ascii " was lost" else ascii " gave the job back")
    ++ ascii " (attempt " ++ decimal attempt.toNat ++ ascii ")"

/-- The record of a job given up after its last attempt. -/
def gaveUpRecord (s : Files) (job : CiJobRequest) (runner : Bytes) : CiRunRecord :=
  { (loadCiRun s job.project_name job.job_id).getD { queuedRecord job with attempt := 1 } with
    status := .error
    finished_epoch_seconds := host.now
    heartbeat_epoch_seconds := host.now
    detail := (gaveUpText runner job.attempt).take kMaximumCiDetailBytes }

/-- Whether the run of a job has a record with a terminal status. -/
def runSettled (s : Files) (job : CiJobRequest) : Bool :=
  match loadCiRun s job.project_name job.job_id with
  | some record => !ciRunStatusIsActive record.status
  | none => false

def requeueJob (job_id : Bytes) (job : CiJobRequest) (runner : Bytes) (enforce_limit : Bool)
    (max_attempts : UInt32) : Op RequeueOutcome := do
  let name := ini job_id
  if enforce_limit ∧ max_attempts ≤ job.attempt then do
    bestEffort do
      let record ← gets fun s => gaveUpRecord host s job runner
      writeCiRunRecord host record
    unlink (.queue .working name)
    unlink (.queue .leases name)
    return .failed
  else do
    let next := { job with attempt := job.attempt + 1 }
    resetRunForRequeue host next job.attempt (requeuedText runner enforce_limit next.attempt)
    -- A crash between these leaves the job queued twice.
    writeFile host (.queue .spool name) (serializeJob next)
    unlink (.queue .working name)
    unlink (.queue .leases name)
    return .requeued

def requeueLocked (job_id runner : Bytes) (enforce_limit : Bool) (max_attempts : UInt32) :
    Op RequeueOutcome := do
  let name := ini job_id
  match ← gets (readJobAt · .working name) with
  | none => do
    renameFile (.queue .working name) (.queue .working (name ++ ascii ".rejected"))
    unlink (.queue .leases name)
    return .gone
  | some job => do
    let settled ← gets (runSettled · job)
    let cancelled ← gets (isCiCancelRequested · job.project_name job.job_id)
    if ¬ job.parent_run_id.isEmpty ∧ settled then do
      -- The child committed before its runner disappeared.
      forEach [.spool, .working, .leases] fun directory => unlink (.queue directory name)
      return .gone
    else if cancelled then do
      cancelQueuedJob host job (ascii "cancelled before its runner returned") .cancelled
      unlink (.queue .working name)
      unlink (.queue .leases name)
      clearCiCancel job.project_name job.job_id
      return .cancelled
    else requeueJob host job_id job runner enforce_limit max_attempts

def validRequest (request : CiJobRequest) : Bool :=
  validDependencies request && isValidCiId request.job_id && isValidProjectName request.project_name
    && isValidClientId request.client_id && isValidObjectId request.commit_id
    && request.runs_on.length ≤ kMaximumCiLabels && request.runs_on.all isValidCiLabel

def enqueueCiJob (request : CiJobRequest) : Op Unit := do
  ofExcept (failIf (¬ validRequest request) "refusing to queue an invalid CI job")
  writeFile host (.queue .spool (ini request.job_id)) (serializeJob request)
  bestEffort do
    prepareCiRunDirectory host request.project_name request.job_id
    writeCiRunRecord host (previewRecord request)
  supersedeCiJobs host request

end CkGit.Store
