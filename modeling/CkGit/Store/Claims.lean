import CkGit.Store.Reconcile

/-!
Claims of queued jobs and their ends (src/common/ci_store.cpp): claimCiJob once
it has chosen a job, abandonCiJob and reapCiLeases, then the choice of the job,
renewCiLease, releaseCiClaim and the removal of a project's jobs. Each holds the
spool lock from its first read to its last write.
-/
namespace CkGit.Store
open CkGit.Base CkGit.Ci Prog

variable (host : Host)

/-- What claimCiJob does with the job it has chosen. -/
def takeJob (runner : Bytes) (lease_seconds : UInt64) (name : Bytes) : Op (Option CiClaim) := do
  let queued ← gets (·.get (.queue .spool name))
  -- Claimed by another runner.
  if queued.isNone then return none
  else do
    renameFile (.queue .spool name) (.queue .working name)
    match ← gets (readJobAt · .working name) with
    | none => do
      renameFile (.queue .working name) (.queue .working (name ++ ascii ".rejected"))
      return none
    | some job => do
      let lease : CiLease :=
        { runner, token := host.token, expires_epoch_seconds := host.now + lease_seconds }
      writeFile host (.queue .leases name) (serializeLease lease)
      return some { job, lease }

def heldUnder (s : Files) (job_id token : Bytes) : Bool :=
  match readLeaseAt s job_id with
  | some lease => lease.token == token
  | none => false

def abandonCiJob (job_id token runner : Bytes) : Op Bool := do
  if ¬ (isValidCiId job_id ∧ isValidLeaseToken token) then return false
  else do
    let held ← gets (heldUnder · job_id token)
    if ¬ held then return false
    else do
      let outcome ← requeueLocked host job_id runner false 0
      return outcome = .requeued

structure CiReapOptions where
  now_epoch_seconds : UInt64 := 0
  max_attempts : UInt32
  restarted_runner : Bytes := []

/-- The limit the reaper enforces. -/
def CiReapOptions.limit (options : CiReapOptions) : UInt32 :=
  if options.max_attempts = 0 then 1 else options.max_attempts

structure CiReapResult where
  requeued : List Bytes := []
  failed : List Bytes := []
  cancelled : List Bytes := []
  next_expiry_epoch_seconds : Option UInt64 := none

/-- What the reaper finds in one name of working/. -/
inductive Reaped where
  | ignored
  | live (expires_epoch_seconds : UInt64)
  | lapsed (job_id : Bytes) (outcome : RequeueOutcome)
  deriving DecidableEq

def hasLapsed (options : CiReapOptions) (lease : Option CiLease) : Bool :=
  let now := if options.now_epoch_seconds ≠ 0 then options.now_epoch_seconds else host.now
  match lease with
  | none => true
  | some lease =>
    lease.expires_epoch_seconds ≤ now
      || (!options.restarted_runner.isEmpty && lease.runner == options.restarted_runner)

def leaseRunner (lease : Option CiLease) : Bytes :=
  match lease with
  | some lease => lease.runner
  | none => []

def reapEntry (options : CiReapOptions) (name : Bytes) : Op Reaped := do
  let job_id := name.take (name.length - 4)
  if ¬ (isIni name ∧ isValidCiId job_id) then return .ignored
  else do
    let lease ← gets (readLeaseAt · job_id)
    if hasLapsed host options lease then do
      let outcome ← requeueLocked host job_id (leaseRunner lease) true options.limit
      return .lapsed job_id outcome
    else return .live (lease.elim 0 (·.expires_epoch_seconds))

def CiReapResult.note (result : CiReapResult) (reaped : Reaped) : CiReapResult :=
  match reaped with
  | .ignored => result
  | .live expires =>
    let earliest := result.next_expiry_epoch_seconds.elim expires (min expires)
    { result with next_expiry_epoch_seconds := some earliest }
  | .lapsed job_id .requeued => { result with requeued := result.requeued ++ [job_id] }
  | .lapsed job_id .failed => { result with failed := result.failed ++ [job_id] }
  | .lapsed job_id .cancelled => { result with cancelled := result.cancelled ++ [job_id] }
  | .lapsed _ .gone => result

def reapCiLeases (options : CiReapOptions) : Op CiReapResult := do
  let names ← gets (·.names .working)
  accumulate (host.order names) {} fun result name => do
    let reaped ← reapEntry host options name
    return result.note reaped

structure CiClaimOptions where
  protocol_version : Nat := 1
  runner : Bytes
  lease_seconds : UInt64
  /-- In milliseconds. -/
  min_age : Int := 0
  one_per_ref : Bool := true
  labels : List Bytes := []
  deriving DecidableEq

/-- A run that has a ref, or waits for its turn on it. -/
structure RefHolder where
  project_name : Bytes
  ref : Bytes
  group : Bytes
  deriving DecidableEq

def refHolder (job : CiJobRequest) : RefHolder := ⟨job.project_name, job.ref, jobGroup job⟩

/-- The runs with a claimed job. -/
def busyRefs (s : Files) : List RefHolder :=
  ((s.names .working).filter isIni).filterMap fun name => (readJobAt s .working name).map refHolder

/-- The workflows with a queued job. -/
def pendingGroups (s : Files) (names : List Bytes) : List RefHolder :=
  ((names.filterMap (readJobAt s .spool)).filter fun queued => ¬ queued.parent_run_id.isEmpty).map refHolder

/-- The runs with a place on a ref: also a workflow between two of its jobs. -/
def pendingRefs (options : CiClaimOptions) (s : Files) (names : List Bytes) : Except String (List RefHolder) := do
  let unpublished ← if options.one_per_ref then listCiUnpublishedWorkflows s else .ok []
  return pendingGroups s names ++ unpublished.map refHolder

/-- Whether another run has the job's ref, or its turn on it first. -/
def outOfTurn (busy pending : List RefHolder) (job : CiJobRequest) : Bool :=
  let same := fun other : RefHolder => other.project_name == job.project_name && other.ref == job.ref
  busy.any (fun other => same other && other.group != jobGroup job)
    || pending.any fun other => same other && decide (other.group < jobGroup job)

/-- The state of one needed run. -/
inductive Need where
  | met
  /-- No record yet, or none that has ended. -/
  | waiting
  /-- Another workflow's run, or one that ended without success. -/
  | failed
  deriving DecidableEq

def needOf (s : Files) (job : CiJobRequest) (dependency : Bytes) : Need :=
  match loadCiRun s job.project_name dependency with
  | none => .waiting
  | some result =>
    if result.parent_run_id ≠ job.parent_run_id ∨ result.commit_id ≠ job.commit_id ∨ result.ref ≠ job.ref then .failed
    else if ciRunStatusIsActive result.status then .waiting
    else if result.status ≠ .success then .failed
    else .met

/-- How long a queued job still has to wait for this runner, in milliseconds. -/
def tooYoung (s : Files) (options : CiClaimOptions) (name : Bytes) : Option Int :=
  match s.get (.queue .spool name) with
  | none => none
  | some file =>
    let age := host.millis - file.modified
    if 0 < options.min_age ∧ age < options.min_age then some (options.min_age - age) else none

inductive Choice where
  | take
  | skip
  /-- Held back for so many milliseconds. -/
  | wait (milliseconds : Int)
  deriving DecidableEq

/-- Whether the runner may have a queued job; a job that can never run is cancelled. -/
def consider (options : CiClaimOptions) (busy pending : List RefHolder) (name : Bytes) (queued : CiJobRequest) :
    Op Choice := do
  let cancelled ← gets (isCiCancelRequested · queued.project_name queued.job_id)
  if (¬ queued.parent_run_id.isEmpty ∨ ¬ queued.dependency_lock_sha256.isEmpty) ∧ cancelled then do
    cancelQueuedJob host queued (ascii "cancelled before it started") .cancelled
    return .skip
  -- No runner has a start permit for these.
  else if ¬ queued.dependency_lock_sha256.isEmpty then return .skip
  else do
    let needs ← gets fun s => queued.needs.map (needOf s queued)
    if .failed ∈ needs then do
      cancelQueuedJob host queued (ascii "skipped: a required job did not succeed") .skipped
      return .skip
    else if .waiting ∈ needs ∨ ¬ ciRunnerMatches options.runner options.labels queued.runs_on
        ∨ (¬ queued.parent_run_id.isEmpty ∧ options.protocol_version < 2)
        ∨ (options.one_per_ref ∧ outOfTurn busy pending queued) then return .skip
    else do
      let young ← gets (tooYoung host · options name)
      return young.elim .take .wait

/-- A job that cannot be read is taken, and then set aside. -/
def chooseEntry (options : CiClaimOptions) (busy pending : List RefHolder) (name : Bytes) : Op Choice := do
  match ← gets (readJobAt · .spool name) with
  | none => return .take
  | some queued => consider host options busy pending name queued

def sooner (retry_in : Option Int) (wait : Int) : Option Int := some (retry_in.elim wait (min wait))

/-- The first job of these names that the runner may have. -/
def claimFrom (options : CiClaimOptions) (busy pending : List RefHolder) (names : List Bytes)
    (retry_in : Option Int) : Op (Option CiClaim × Option Int) :=
  match names with
  | [] => return (none, retry_in)
  | name :: rest => do
    match ← chooseEntry host options busy pending name with
    | .skip => claimFrom options busy pending rest retry_in
    | .wait milliseconds => claimFrom options busy pending rest (sooner retry_in milliseconds)
    | .take =>
      match ← takeJob host options.runner options.lease_seconds name with
      | none => claimFrom options busy pending rest retry_in
      | some claim => do
        whenever (¬ claim.job.parent_run_id.isEmpty) (reconcileWorkflowGroups host)
        return (some claim, retry_in)

/-- The names of spool/ in the order they are offered. -/
def queueOrder (listed : List Bytes) : List Bytes :=
  (listed.mergeSort fun a b => a ≤ b).filter fun name => 4 < name.length && isIni name

def claimCiJob (options : CiClaimOptions) : Op (Option CiClaim × Option Int) := do
  ofExcept (failIf (¬ isValidClientId options.runner ∨ options.lease_seconds = 0) "invalid CI claim options")
  reconcileWorkflowGroups host
  let listed ← gets (·.names .spool)
  let names := queueOrder (host.order listed)
  let busy ← gets busyRefs
  let pending ← reads (pendingRefs options · names)
  claimFrom host options busy pending names none

def renewCiLease (job_id token : Bytes) (lease_seconds : UInt64) : Op Bool := do
  if ¬ (isValidCiId job_id ∧ isValidLeaseToken token) then return false
  else do
    let claimed ← gets fun s => (s.get (.queue .working (ini job_id))).isSome
    match ← gets (readLeaseAt · job_id) with
    | none => return false
    | some lease =>
      if ¬ claimed ∨ lease.token ≠ token then return false
      else do
        writeFile host (.queue .leases (ini job_id))
          (serializeLease { lease with expires_epoch_seconds := host.now + lease_seconds })
        return true

def releaseCiClaim (job_id token : Bytes) : Op Bool := do
  if ¬ (isValidCiId job_id ∧ isValidLeaseToken token) then return false
  else do
    let held ← gets (heldUnder · job_id token)
    if ¬ held then return false
    else do
      unlink (.queue .working (ini job_id))
      unlink (.queue .leases (ini job_id))
      reconcileWorkflowGroups host
      return true

/-- releaseCiJob takes no lock. -/
def releaseCiJob (job_id : Bytes) : Op Unit := do
  ofExcept (failIf (¬ isValidCiId job_id) "refusing to release an invalid CI job id")
  unlink (.queue .working (ini job_id))
  unlink (.queue .leases (ini job_id))

/-- The jobs of one journal, when it is the project's. -/
def removeGroup (project_name file : Bytes) : Op Unit := do
  match ← reads (·.readCapped (.queue .groups file) kMaximumWorkflowGroupBytes) with
  | none => return ()
  | some bytes => do
    let group ← ofExcept (parseWorkflowGroup bytes)
    whenever (group.parent.project_name = project_name) do
      forEach group.children fun child =>
        forEach [.working, .leases, .spool] fun directory => unlink (.queue directory (ini child.job_id))
      unlink (.queue .groups file)

/-- std::filesystem::remove_all of every run of the project. -/
def removeRuns (project_name : Bytes) : Op Unit := do
  let paths ← gets (·.paths)
  let ofProject := fun path : Path => match path with
    | .run project _ _ => project == project_name
    | .queue .. => false
  forEach (paths.filter ofProject) unlink

def removeProjectCi (project_name : Bytes) : Op Unit := do
  ofExcept (failIf (¬ isValidProjectName project_name) "invalid project name for CI removal")
  let files ← gets (·.names .groups)
  forEach ((host.order files).filter isIni) (removeGroup project_name)
  removeRuns project_name

end CkGit.Store
