import CkGit.Base.Returns
import CkGit.Ci.JobSize
import CkGit.Store.Reconcile
import CkGit.Store.RoundTrip

/-!
What the operations of the queue do to the jobs of one ref. Of a job the
superseding rules see only its key; a job is queued, or retired: out of the
spool with a Cancelled record. Nothing here claims a job.
-/
namespace CkGit.Store
open CkGit.Base CkGit.Ci Prog
open CkGit.Workflow (queuedRecord previewRecord)

structure JobKey where
  job_id : Bytes
  project_name : Bytes
  ref : Bytes
  parent_run_id : Bytes
  auto_cancel : Bool
  deriving DecidableEq

def JobKey.group (key : JobKey) : Bytes := if key.parent_run_id.isEmpty then key.job_id else key.parent_run_id

def jobKey (job : CiJobRequest) : JobKey :=
  { job_id := job.job_id, project_name := job.project_name, ref := job.ref, parent_run_id := job.parent_run_id,
    auto_cancel := job.auto_cancel }

def OnBranch (ref : Bytes) : Prop := (ascii "refs/heads/").isPrefixOf ref = true

/-- The first key cancels the second: a newer group of the same branch with auto_cancel set. -/
structure Overtakes (newer older : JobKey) : Prop where
  branch : OnBranch older.ref
  project : newer.project_name = older.project_name
  ref : newer.ref = older.ref
  later : older.group < newer.group
  policy : newer.auto_cancel

def Doomed (all : List JobKey) (key : JobKey) : Prop := ∃ newer ∈ all, Overtakes newer key

def Spooled (s : Files) (key : JobKey) : Prop := (s.get (.queue .spool (ini key.job_id))).isSome

structure Retired (s : Files) (key : JobKey) : Prop where
  absent : s.get (.queue .spool (ini key.job_id)) = none
  cancelled : ∃ record, loadCiRun s key.project_name key.job_id = some record ∧ record.status = .cancelled

def Arrived (s : Files) (key : JobKey) : Prop := Spooled s key ∨ Retired s key

/-- The submitted keys and workflows: every id is used once, and a workflow's children are its own. -/
structure Coherent (all keys : List JobKey) (groups : List WorkflowGroup) : Prop where
  within : ∀ key ∈ keys, key ∈ all
  ids : ∀ one ∈ keys, ∀ two ∈ keys, one.job_id = two.job_id → one = two
  parents : ∀ one ∈ groups, ∀ two ∈ groups, one.parent.job_id = two.parent.job_id → one = two
  apart : ∀ key ∈ keys, ∀ group ∈ groups, key.job_id ≠ group.parent.job_id
  valid : ∀ group ∈ groups, validateWorkflowGroup group = .ok ()
  children : ∀ group ∈ groups, ∀ child ∈ group.children, jobKey child ∈ keys
  kin : ∀ group ∈ groups, ∀ key ∈ keys, key.parent_run_id = group.parent.job_id →
    key.project_name = group.parent.project_name ∧ key.ref = group.parent.ref
  owner : ∀ key ∈ keys, key.parent_run_id ≠ [] → ∃ group ∈ groups, group.parent.job_id = key.parent_run_id

/-- What a file may be at its path. -/
def Allowed (all keys : List JobKey) (groups : List WorkflowGroup) (path : Path) (bytes : Bytes) : Prop :=
  match path with
  | .queue .spool name => ∃ job, bytes.length ≤ kMaximumCiRunRecordBytes ∧ parseJob bytes = .ok job
      ∧ jobKey job ∈ keys ∧ name = ini job.job_id
  | .queue .working _ => False
  | .queue .groups name => ∃ group ∈ groups, serializeWorkflowGroup group = .ok bytes
      ∧ name = ini group.parent.job_id
  | .queue .leases _ => True
  | .run _ id .record => (∃ key ∈ keys, key.job_id = id) ∨ ∃ group ∈ groups, group.parent.job_id = id
  | .run _ id .cancel => ∃ group ∈ groups, group.parent.job_id = id
      ∧ ∀ key ∈ keys, key.parent_run_id = id → Doomed all key
  | .run _ id .workflow => ∃ group ∈ groups, serializeWorkflowGroup group = .ok bytes ∧ group.parent.job_id = id
  | .run .. => True

structure Consistent (all keys : List JobKey) (groups : List WorkflowGroup) (s : Files) : Prop where
  files : ∀ path file, s.get path = some file → Allowed all keys groups path file.bytes
  settled : ∀ key ∈ keys, ∀ record, loadCiRun s key.project_name key.job_id = some record →
    ciRunStatusIsActive record.status ∨ Doomed all key ∧ Retired s key

section
variable {all keys : List JobKey} {groups : List WorkflowGroup} {s t u : Files} {host : Host}

/-- What no operation undoes: a job that came stays queued or is retired for good. -/
structure Advance (all keys : List JobKey) (groups : List WorkflowGroup) (s t : Files) : Prop where
  consistent : Consistent all keys groups t
  arrived : ∀ key ∈ keys, Arrived s key → Arrived t key
  retired : ∀ key ∈ keys, Retired s key → Retired t key

/-- An advance that leaves the journals alone. -/
structure Step (all keys : List JobKey) (groups : List WorkflowGroup) (s t : Files) : Prop
    extends Advance all keys groups s t where
  journals : ∀ name, t.get (.queue .groups name) = s.get (.queue .groups name)

theorem Advance.refl (h : Consistent all keys groups s) : Advance all keys groups s s :=
  ⟨h, fun _ _ held => held, fun _ _ held => held⟩

theorem Advance.trans (first : Advance all keys groups s t) (second : Advance all keys groups t u) :
    Advance all keys groups s u :=
  ⟨second.consistent, fun key own held => second.arrived key own (first.arrived key own held),
    fun key own held => second.retired key own (first.retired key own held)⟩

theorem Step.refl (h : Consistent all keys groups s) : Step all keys groups s s := ⟨.refl h, fun _ => rfl⟩

theorem Step.trans (first : Step all keys groups s t) (second : Step all keys groups t u) :
    Step all keys groups s u :=
  ⟨first.toAdvance.trans second.toAdvance, fun name => (second.journals name).trans (first.journals name)⟩

theorem loadCiRun_same {project id : Bytes} (same : t.get (.run project id .record) = s.get (.run project id .record)) :
    loadCiRun t project id = loadCiRun s project id := by
  unfold loadCiRun
  split
  · exact Files.readAs_congr same
  · rfl

/-- What one step may do to a job. -/
inductive Transition (all : List JobKey) (s t : Files) (key : JobKey) : Prop where
  | same (spool : t.get (.queue .spool (ini key.job_id)) = s.get (.queue .spool (ini key.job_id)))
      (record : t.get (.run key.project_name key.job_id .record) = s.get (.run key.project_name key.job_id .record))
  | retire (doomed : Doomed all key) (retired : Retired t key)
  | stay (live : ¬ Retired s key) (kept : Spooled s key → Spooled t key)
      (active : ∀ record, loadCiRun t key.project_name key.job_id = some record → ciRunStatusIsActive record.status)

theorem retired_same {key : JobKey}
    (spool : t.get (.queue .spool (ini key.job_id)) = s.get (.queue .spool (ini key.job_id)))
    (record : t.get (.run key.project_name key.job_id .record) = s.get (.run key.project_name key.job_id .record))
    (held : Retired s key) : Retired t key := by
  obtain ⟨absent, run, loaded, status⟩ := held
  exact ⟨spool ▸ absent, run, (loadCiRun_same record).trans loaded, status⟩

/-- What came stays when the files are allowed and each job makes one of the moves. -/
theorem Consistent.advance (h : Consistent all keys groups s)
    (files : ∀ path file, t.get path = some file → Allowed all keys groups path file.bytes)
    (moves : ∀ key ∈ keys, Transition all s t key) : Advance all keys groups s t := by
  refine ⟨⟨files, fun key own record loaded => ?_⟩, fun key own held => ?_, fun key own held => ?_⟩
  · cases moves key own with
    | same spool same =>
      rw [loadCiRun_same same] at loaded
      exact (h.settled key own record loaded).imp id fun ⟨doomed, held⟩ => ⟨doomed, retired_same spool same held⟩
    | retire doomed retired => exact .inr ⟨doomed, retired⟩
    | stay live kept active => exact .inl (active record loaded)
  · cases moves key own with
    | same spool same => exact held.imp (fun queued => by rwa [Spooled, spool]) (retired_same spool same)
    | retire doomed retired => exact .inr retired
    | stay live kept active => exact .inl (kept (held.resolve_right live))
  · cases moves key own with
    | same spool same => exact retired_same spool same held
    | retire doomed retired => exact retired
    | stay live kept active => exact (live held).elim

/-- The paths that decide about jobs. -/
def Watched (path : Path) : Prop :=
  match path with
  | .queue .. => True
  | .run _ _ file => file = .record ∨ file = .cancel ∨ file = .workflow

theorem watched_queue {directory : Directory} {name : Bytes} : Watched (.queue directory name) := trivial

theorem watched_record {project id : Bytes} : Watched (.run project id .record) := .inl rfl

/-- A path that decides nothing may hold anything. -/
theorem Consistent.allowed (h : Consistent all keys groups s) {path : Path} {file : File}
    (same : Watched path → t.get path = s.get path) (held : t.get path = some file) :
    Allowed all keys groups path file.bytes := by
  by_cases watched : Watched path
  · exact h.files path file (same watched ▸ held)
  · cases path with
    | queue => exact (watched trivial).elim
    | run project id kind =>
      cases kind <;> first | trivial | (exfalso; revert watched; simp [Watched])

theorem Consistent.unwatched (h : Consistent all keys groups s) (same : ∀ path, Watched path → t.get path = s.get path) :
    Step all keys groups s t := by
  refine ⟨h.advance (fun path file held => ?_) fun key _ => .same (same _ watched_queue) (same _ watched_record),
    fun name => same _ watched_queue⟩
  exact h.allowed (same path) held

/-- One allowed file is written. -/
theorem Consistent.put (h : Consistent all keys groups s) {path : Path} {file : File}
    (allowed : Allowed all keys groups path file.bytes) (other : ∀ name, path ≠ .queue .groups name)
    (moves : ∀ key ∈ keys, path = .queue .spool (ini key.job_id) ∨ path = .run key.project_name key.job_id .record →
      Transition all s (s.put path file) key) : Step all keys groups s (s.put path file) := by
  refine ⟨h.advance (fun place held get => ?_) fun key own => ?_, fun name => Files.get_put_ne (other name).symm⟩
  · rw [Files.get_put] at get
    split at get
    · next same =>
      cases get
      exact same ▸ allowed
    · exact h.files place held get
  · by_cases touched : path = .queue .spool (ini key.job_id) ∨ path = .run key.project_name key.job_id .record
    · exact moves key own touched
    · rw [not_or] at touched
      exact .same (Files.get_put_ne (Ne.symm touched.1)) (Files.get_put_ne (Ne.symm touched.2))

theorem Consistent.journal (h : Consistent all keys groups s) {group : WorkflowGroup} {bytes : Bytes} (own : group ∈ groups)
    (text : serializeWorkflowGroup group = .ok bytes) (modified : Int) :
    Advance all keys groups s (s.put (.queue .groups (ini group.parent.job_id)) ⟨bytes, modified⟩) := by
  refine h.advance (fun path held get => ?_) fun key _ => .same (Files.get_put_ne (by simp)) (Files.get_put_ne (by simp))
  rw [Files.get_put] at get
  split at get
  · next same =>
    cases get
    exact same ▸ ⟨group, own, text, rfl⟩
  · exact h.files path held get

theorem Consistent.forget (h : Consistent all keys groups s) (file : Bytes) :
    Advance all keys groups s (s.remove (.queue .groups file)) := by
  refine h.advance (fun path held get => ?_) fun key _ => .same (Files.get_remove_ne (by simp)) (Files.get_remove_ne (by simp))
  rw [Files.get_remove] at get
  split at get
  · cases get
  · exact h.files path held get

end

end CkGit.Store
