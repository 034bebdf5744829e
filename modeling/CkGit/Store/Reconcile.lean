import CkGit.Store.Queue

/-!
Distributed workflows in the queue (reconcileWorkflowGroups and
enqueueCiWorkflowJobs in src/common/ci_store.cpp): a group's journal is written
first, and its children are queued from it. Both hold the spool lock.
-/
namespace CkGit.Store
open CkGit.Base CkGit.Ci Prog
open CkGit.Workflow (queuedRecord)

variable (host : Host)

/-- Whether a record belongs to another child. -/
def mismatched (parent child : CiJobRequest) (record : CiRunRecord) : Prop :=
  record.parent_run_id ≠ parent.job_id ∨ record.workflow_job ≠ child.workflow_job ∨ record.commit_id ≠ child.commit_id
    ∨ record.ref ≠ child.ref

instance (parent child : CiJobRequest) (record : CiRunRecord) : Decidable (mismatched parent child record) := by
  unfold mismatched
  infer_instance

/-- The record of a child, written when it has none. -/
def childRecord (parent child : CiJobRequest) : Op CiRunRecord := do
  match ← gets (loadCiRun · child.project_name child.job_id) with
  | some record => do
    ofExcept (failIf (mismatched parent child record) "distributed child record identity mismatch")
    return record
  | none => do
    writeCiRunRecord host (queuedRecord child)
    return queuedRecord child

/-- A child that may still run is queued again when it is lost, and ended when its
workflow is cancelled. -/
def reviveChild (child : CiJobRequest) (record : CiRunRecord) (held : Bool) : Op CiRunRecord :=
  if ¬ ciRunStatusIsActive record.status then return record
  else do
    let queued ← gets (readJobAt · .spool (ini child.job_id))
    whenever (¬ held ∧ queued.isNone)
      (writeFile host (.queue .spool (ini child.job_id)) (serializeJob { child with attempt := record.attempt }))
    let cancelled ← gets (isCiCancelRequested · child.project_name child.job_id)
    if ¬ held ∧ cancelled then do
      cancelQueuedJob host child (ascii "workflow cancelled before job started") .cancelled
      let again ← gets (loadCiRun · child.project_name child.job_id)
      ofExcept (orFail "distributed child record disappeared" again)
    else return record

/-- The record of a child behind its part of the loop, and whether a runner holds it. -/
def reconcileChild (parent child : CiJobRequest) : Op (CiRunRecord × Bool) := do
  let record ← childRecord host parent child
  let held ← gets fun s => (readJobAt s .working (ini child.job_id)).isSome
  let record ← reviveChild host child record held
  whenever (¬ ciRunStatusIsActive record.status ∧ ¬ held) (unlink (.queue .spool (ini child.job_id)))
  return (record, held)

def priority (status : CiRunStatus) : Nat :=
  match status with
  | .error => 6
  | .timeout => 5
  | .failure => 4
  | .cancelled => 3
  | .skipped => 2
  | _ => 0

structure GroupProgress where
  summary : CiRunRecord
  done : Nat := 0
  running : Bool := false
  terminal : CiRunStatus := .success

def GroupProgress.start (parent : CiJobRequest) : GroupProgress := { summary := queuedRecord parent }

def GroupProgress.note (progress : GroupProgress) (record : CiRunRecord) (held : Bool) : GroupProgress :=
  let ended := !ciRunStatusIsActive record.status
  let summary := progress.summary
  let earlier := record.started_epoch_seconds ≠ 0 ∧
    (summary.started_epoch_seconds = 0 ∨ record.started_epoch_seconds < summary.started_epoch_seconds)
  { summary :=
      { summary with
        started_epoch_seconds := if earlier then record.started_epoch_seconds else summary.started_epoch_seconds
        heartbeat_epoch_seconds := max summary.heartbeat_epoch_seconds record.heartbeat_epoch_seconds
        finished_epoch_seconds := max summary.finished_epoch_seconds record.finished_epoch_seconds }
    done := if ended then progress.done + 1 else progress.done
    running := progress.running || held || record.status == .running
    terminal := if ended ∧ priority record.status > priority progress.terminal then record.status else progress.terminal }

/-- The parent's record when the children are through. -/
def GroupProgress.record (progress : GroupProgress) (children : Nat) (now : UInt64) : CiRunRecord :=
  let status :=
    if progress.done = children then progress.terminal
    else if progress.running ∨ progress.done ≠ 0 then .running
    else .pending
  let finished := progress.summary.finished_epoch_seconds
  { progress.summary with
    status
    finished_epoch_seconds := if ciRunStatusIsActive status then 0 else if finished = 0 then now else finished
    detail := decimal progress.done ++ ascii "/" ++ decimal children ++ ascii " jobs completed" }

def reconcileStep (parent : CiJobRequest) (progress : GroupProgress) (child : CiJobRequest) : Op GroupProgress := do
  let (record, held) ← reconcileChild host parent child
  return progress.note record held

/-- The run directory of a group's parent, with its journal and a record. -/
def publishGroup (parent : CiJobRequest) (bytes : Bytes) : Op Unit := do
  prepareCiRunDirectory host parent.project_name parent.job_id
  match ← reads (·.readCapped (.run parent.project_name parent.job_id .workflow) kMaximumWorkflowGroupBytes) with
  | some existing => ofExcept (failIf (existing ≠ bytes) "distributed workflow changed after publication")
  | none => writeFile host (.run parent.project_name parent.job_id .workflow) bytes
  let recorded ← gets (loadCiRun · parent.project_name parent.job_id)
  whenever recorded.isNone (writeCiRunRecord host (queuedRecord parent))

def reconcileGroup (file : Bytes) : Op Unit := do
  match ← reads (·.readCapped (.queue .groups file) kMaximumWorkflowGroupBytes) with
  | none => return ()
  | some bytes => do
    let group ← ofExcept (parseWorkflowGroup bytes)
    ofExcept (failIf (file ≠ ini group.parent.job_id) "distributed journal ID mismatch")
    publishGroup host group.parent bytes
    let progress ← accumulate group.children (GroupProgress.start group.parent) (reconcileStep host group.parent)
    forEach group.children (supersedeCiJobs host)
    let summary := progress.record group.children.length host.now
    writeCiRunRecord host summary
    whenever (¬ ciRunStatusIsActive summary.status) (unlink (.queue .groups file))

def reconcileWorkflowGroups : Op Unit := do
  let files ← gets (·.names .groups)
  forEach (((host.order files).mergeSort fun a b => a ≤ b).filter isIni) (reconcileGroup host)

/-- The journal of a group whose parent and children are new. -/
def writeJournal (group : WorkflowGroup) (bytes : Bytes) : Op Unit := do
  match ← reads (·.readCapped (.queue .groups (ini group.parent.job_id)) kMaximumWorkflowGroupBytes) with
  | some existing => ofExcept (failIf (existing ≠ bytes) "refusing to replace a workflow journal")
  | none => do
    let taken ← gets fun s => group.children.any fun child =>
      (loadCiRun s child.project_name child.job_id).isSome || (readJobAt s .spool (ini child.job_id)).isSome
        || (readJobAt s .working (ini child.job_id)).isSome
    ofExcept (failIf taken "child ID already belongs to a job")
    writeFile host (.queue .groups (ini group.parent.job_id)) bytes

/-- The journal a run directory holds. -/
def publishedJournal (s : Files) (parent : CiJobRequest) : Except String (Option Bytes) :=
  if hasRunDir s parent.project_name parent.job_id then
    s.readCapped (.run parent.project_name parent.job_id .workflow) kMaximumWorkflowGroupBytes
  else .ok none

def enqueueCiWorkflowJobs (parent : CiJobRequest) (children : List CiJobRequest) : Op Unit := do
  let group : WorkflowGroup := { parent, children }
  ofExcept (validateWorkflowGroup group)
  let bytes ← ofExcept (serializeWorkflowGroup group)
  match ← reads fun s => publishedJournal s parent with
  | some old => do
    ofExcept (failIf (old ≠ bytes) "refusing to replace an existing workflow graph")
    reconcileWorkflowGroups host
  | none => do
    let recorded ← gets fun s => hasRunDir s parent.project_name parent.job_id
      && (loadCiRun s parent.project_name parent.job_id).isSome
    ofExcept (failIf recorded "parent ID already belongs to a run")
    writeJournal host group bytes
    reconcileWorkflowGroups host
    forEach children (supersedeCiJobs host)

end CkGit.Store
