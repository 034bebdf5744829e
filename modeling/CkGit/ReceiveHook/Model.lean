import CkGit.Listings.Model
import CkGit.Workflow.Model

/-!
The post-receive hook (src/receive-hook/main.cpp) and the queueing of a pushed
workflow (enqueueCiWorkflow in src/common/ci_runner.cpp). A call of the CI store
may throw, before or after it has done its work.
-/
namespace CkGit.ReceiveHook
open CkGit.Base CkGit.Ci CkGit.Workflow
open CkGit.Listings (isObjectId isHeadOrTag isValidReleaseTag)

def kMaximumInputBytes : Nat := 16 * 1024 * 1024
def kMaximumRefUpdates : Nat := 200000

structure RefUpdate where
  old_id : Bytes
  new_id : Bytes
  ref : Bytes
deriving DecidableEq

def RefUpdate.line (update : RefUpdate) : Bytes := [space].intercalate [update.old_id, update.new_id, update.ref]

/-- An update as Git writes one: Git allows neither a space nor a newline in a ref. -/
structure RefUpdate.WellFormed (update : RefUpdate) : Prop where
  old_id : isObjectId update.old_id = true
  new_id : isObjectId update.new_id = true
  lengths : update.old_id.length = update.new_id.length
  spaces : space ∉ update.ref
  newlines : newline ∉ update.ref

/-- What Git hands to the hook: one update for each ref of the push. -/
structure Push where
  updates : List RefUpdate
  well_formed : ∀ update ∈ updates, update.WellFormed
  distinct : (updates.map RefUpdate.ref).Nodup

def Push.input (push : Push) : Bytes := framed (push.updates.map RefUpdate.line)

/-- The fields of a line with exactly two spaces. -/
def fields (line : Bytes) : Option RefUpdate :=
  match line.splitOn space with
  | [old_id, new_id, ref] => some { old_id, new_id, ref }
  | _ => none

def isAllowedRef (value : Bytes) : Bool :=
  isHeadOrTag value && value.length ≤ 512
    && value.all fun character => 0x21 ≤ character && character ≤ 0x7e && character != '\\'.toUInt8

def validateUpdate (line : Bytes) : Except String Unit :=
  match fields line with
  | none => .error "post-receive input has invalid update fields"
  | some update =>
    if isObjectId update.old_id ∧ isObjectId update.new_id ∧ update.old_id.length = update.new_id.length
        ∧ isAllowedRef update.ref then .ok ()
    else .error "post-receive input contains unsafe ref data"

def validateLines (updates : Nat) : List Bytes → Except String Unit
  | [] => .ok ()
  | line :: rest => do
    if line.isEmpty ∨ updates + 1 > kMaximumRefUpdates then
      throw "post-receive input has too many or malformed updates"
    validateUpdate line
    validateLines (updates + 1) rest

def validateUpdates (input : Bytes) : Except String Unit :=
  if input.isEmpty then .ok ()
  else if input.getLast? ≠ some newline then .error "post-receive input has invalid framing"
  else validateLines 0 (input.splitOn newline).dropLast

/-- One job, or a distributed workflow with its children. -/
inductive Queued where
  | job (request : CiJobRequest)
  | group (parent : CiJobRequest) (children : List CiJobRequest)
deriving DecidableEq

def Queued.parent : Queued → CiJobRequest
  | job request => request
  | group parent _ => parent

/-- The tag of a release. -/
def ReleaseTag : Type := { tag : Bytes // isValidReleaseTag tag = true }

/-- What was queued for the project, in order, and the tags of its releases. What the
store supersedes or runs of `queued` afterwards stays in it. -/
structure CiState where
  queued : List Queued := []
  releases : List ReleaseTag := []

inductive Fault where
  | none
  | before
  | after
deriving DecidableEq

/-- What the hook reads. `workflow` is the definition of a commit, none when it
has none that can be read and parsed; `prepared` is whether prepareCiJob
prepared the run; `fault` is what the calls of the CI store for a ref do. -/
structure Host where
  project_name : Bytes
  client_id : Bytes
  now : UInt64
  ci_enabled : Bool
  workflow : Bytes → Option CiWorkflow
  prepared : CiJobRequest → Bool
  job_id : Bytes → Bytes
  child_id : Bytes → Bytes → Bytes
  fault : Bytes → Fault

variable (host : Host)

/-- A call that returned or threw, and the state behind it. -/
abbrev Call : Type := CiState → Bool × CiState

def storeCall (ref : Bytes) (effect : CiState → CiState) : Call := fun state =>
  match host.fault ref with
  | .none => (true, effect state)
  | .before => (false, state)
  | .after => (false, effect state)

def CiState.enqueue (state : CiState) (queued : Queued) : CiState := { state with queued := state.queued ++ [queued] }

def CiState.removeRelease (state : CiState) (tag : Bytes) : CiState :=
  { state with releases := state.releases.filter fun release => release.val ≠ tag }

def enqueueCiJob (request : CiJobRequest) : Call := storeCall host request.ref (·.enqueue (.job request))

def enqueueCiWorkflowJobs (parent : CiJobRequest) (children : List CiJobRequest) : Call :=
  storeCall host parent.ref (·.enqueue (.group parent children))

structure CiQueuePolicy where
  runs_on : List Bytes := []
  auto_cancel : Bool := true

def ciWorkflowQueuePolicy (commit : Bytes) : CiQueuePolicy :=
  match host.workflow commit with
  | some workflow => { runs_on := workflow.runs_on, auto_cancel := workflow.auto_cancel }
  | none => {}

def childRequest (parent : CiJobRequest) (job : CiJob) : CiJobRequest :=
  { parent with
    job_id := host.child_id parent.ref job.name
    parent_run_id := parent.job_id
    workflow_job := job.name
    runs_on := job.runs_on
    needs := job.needs.map (host.child_id parent.ref) }

def enqueueCiWorkflow (parent : CiJobRequest) : Call :=
  let policy := ciWorkflowQueuePolicy host parent.commit_id
  let parent := { parent with runs_on := policy.runs_on, auto_cancel := policy.auto_cancel }
  match host.workflow parent.commit_id with
  | none => enqueueCiJob host parent
  | some workflow =>
    if workflow.version = 1 then enqueueCiJob host parent
    else if ¬ host.prepared parent then enqueueCiJob host parent
    else enqueueCiWorkflowJobs host parent (workflow.jobs.map (childRequest host parent))

def isHead (ref : Bytes) : Bool := (ascii "refs/heads/").isPrefixOf ref
def isTag (ref : Bytes) : Bool := (ascii "refs/tags/").isPrefixOf ref

def RefUpdate.deletion (update : RefUpdate) : Bool := update.new_id.all (· == '0'.toUInt8)

/-- The name of a tag ref. -/
def RefUpdate.tag (update : RefUpdate) : Bytes := update.ref.drop (ascii "refs/tags/").length

def jobRequest (update : RefUpdate) : CiJobRequest where
  job_id := host.job_id update.ref
  project_name := host.project_name
  ref := update.ref
  commit_id := update.new_id
  client_id := host.client_id
  queued_epoch_seconds := host.now

/-- One update. Only a release that is not removed is caught. -/
def enqueueUpdate (update : RefUpdate) : Call := fun state =>
  if ¬ isHead update.ref ∧ ¬ isTag update.ref then (true, state)
  else if isTag update.ref ∧ update.deletion then
    if isValidReleaseTag update.tag then
      (true, (storeCall host update.ref (·.removeRelease update.tag) state).2)
    else (true, state)
  else if update.deletion then (true, state)
  else enqueueCiWorkflow host (jobRequest host update) state

/-- The updates one after another; an exception ends the loop. -/
def enqueueLines : List Bytes → Call
  | [], state => (true, state)
  | line :: rest, state =>
    match fields line with
    | none => enqueueLines rest state
    | some update =>
      match enqueueUpdate host update state with
      | (true, after) => enqueueLines rest after
      | (false, after) => (false, after)

def enqueueCiJobs (updates : Bytes) : Call := fun state =>
  if ¬ host.ci_enabled then (true, state)
  else enqueueLines host (updates.splitOn newline).dropLast state

/-- What the hook leaves of the CI state; it catches what enqueueCiJobs throws. -/
def run (input : Bytes) (state : CiState) : CiState :=
  if input.length > kMaximumInputBytes then state
  else
    match validateUpdates input with
    | .error _ => state
    | .ok () => if input.isEmpty then state else (enqueueCiJobs host input state).2

end CkGit.ReceiveHook
