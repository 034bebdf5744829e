import CkGit.Vm.Relay

/-!
What a hostile guest can make the host's relay do: only the calls of a legal
execution of the assignment, whatever frames it sends and whatever the sink
answers or throws.
-/
namespace CkGit.Vm
open CkGit.Base CkGit.Ci CkGit.Workflow

/-- An execution of the assignment as the calls on the sink tell it. -/
structure Execution where
  started : Bool := false
  steps : List CiStepResult := []
  active : Bool := false
  /-- The bytes logged of the active step. -/
  logged : Nat := 0
  /-- The job and the size of the last artifact the guest announced. -/
  announced : Option (Nat × Nat) := none
  /-- The jobs whose artifact was put. -/
  stored : List Nat := []
  pages : Bool := false
  /-- A cancel was sent to the guest. -/
  cancelled : Bool := false

/-- The job and the size in an artifact event. -/
def announcement (frame : CiVmFrame) : Option (Nat × Nat) :=
  if frame.type = .event then
    match fields frame.payload with
    | .ok [name, job, size, _] =>
      match eventNumber job, eventNumber size with
      | .ok job, .ok size => if name = ascii "artifact" then some (job, size) else none
      | _, _ => none
    | _ => none
  else none

def observe (execution : Execution) (frame : CiVmFrame) : Execution :=
  match announcement frame with
  | some announced => { execution with announced := some announced }
  | none => execution

section
variable (assignment : CiPreparedJob) (policy : CiRemotePolicy)

def total : Nat := (stepNames assignment).length

/-- The calls that may come next; the polls may come at any time. -/
def CallAllowed (execution : Execution) (call : SinkCall) : Prop :=
  match call with
  | .runStarted _ => execution.started = false
  | .stepStarted _ index =>
    execution.started = true ∧ execution.active = false ∧ index = execution.steps.length
      ∧ index < total assignment ∧ ∀ step ∈ execution.steps, passed step = true
  | .appendLog index bytes =>
    execution.active = true ∧ index = execution.steps.length
      ∧ execution.logged + bytes.length ≤ policy.max_log_bytes.toNat
  | .stepFinished record index =>
    execution.active = true ∧ index = execution.steps.length
      ∧ ∃ step, record.steps = execution.steps ++ [step]
        ∧ (stepNames assignment)[index]? = some step.name
  | .heartbeat _ | .tick => True
  | .progress _ => execution.started = true
  | .putArtifact artifact bundle note release =>
    execution.started = true ∧ execution.active = false
      ∧ (∀ step ∈ execution.steps, passed step = true)
      ∧ (bundle = none ↔ note ≠ []) ∧ release = assignment.is_release
      ∧ ∃ job size, execution.announced = some (job, size) ∧ job ∉ execution.stored
        ∧ assignment.workflow.jobs[job]?.bind (·.artifact) = some artifact
        ∧ stepsUpTo assignment job ≤ execution.steps.length
        ∧ bundle.elim 0 List.length = size ∧ size ≤ policy.artifact_max_bytes.toNat
  | .putPagesSite =>
    execution.started = true ∧ execution.active = false ∧ execution.pages = false
      ∧ assignment.is_default_branch = true ∧ assignment.is_release = false
      ∧ assignment.workflow.pages_path.isSome = true
      ∧ execution.steps.length = total assignment ∧ ∀ step ∈ execution.steps, passed step = true

def callAfter (execution : Execution) (call : SinkCall) : Execution :=
  match call with
  | .runStarted _ => { execution with started := true }
  | .stepStarted _ _ => { execution with active := true, logged := 0 }
  | .appendLog _ bytes => { execution with logged := execution.logged + bytes.length }
  | .stepFinished record _ => { execution with steps := record.steps, active := false }
  | .heartbeat _ | .tick | .progress _ => execution
  | .putArtifact _ _ _ _ =>
    { execution with stored := (execution.announced.map Prod.fst).toList ++ execution.stored }
  | .putPagesSite => { execution with pages := true }

/-- The relay's operations in a legal execution. -/
def legal : Protocol RelayOp Execution where
  allowed execution op :=
    match op with
    | .call call => CallAllowed assignment policy execution call
    | _ => True
  after execution op reply :=
    match op, reply with
    | .call call, _ => callAfter execution call
    | .send frame, _ => if frame.type = .cancel then { execution with cancelled := true } else execution
    | .receive, .ok frame => observe execution frame.val
    | _, _ => execution

/-- Every step of every job passed under its own name, and no cancel was sent. -/
structure Succeeded (execution : Execution) (record : CiRunRecord) : Prop where
  started : execution.started = true
  steps : record.steps = execution.steps
  named : record.steps.map (·.name) = stepNames assignment
  passed : ∀ step ∈ record.steps, step.exit_code = 0 ∧ step.timed_out = false
  uncancelled : execution.cancelled = false

/-- The action makes legal calls only, and the postcondition holds when it returns. -/
def Safe {α : Type} (action : Relay α) (execution : Execution) (post : α → Execution → Prop) : Prop :=
  (legal assignment policy).Follows action.run execution fun result execution =>
    ∀ a, result = .ok a → post a execution

end

section
variable {assignment : CiPreparedJob} {policy : CiRemotePolicy} {α β : Type} {execution : Execution}
  {post : α → Execution → Prop}

theorem safe_pure {a : α} (h : post a execution) : Safe assignment policy (pure a) execution post :=
  fun _ same => Except.ok.inj same ▸ h

theorem safe_throw {error : String} : Safe assignment policy (throw error) execution post := nofun

theorem safe_bind {action : Relay α} {next : α → Relay β} {post : β → Execution → Prop}
    (h : Safe assignment policy action execution fun a execution =>
      Safe assignment policy (next a) execution post) :
    Safe assignment policy (action >>= next) execution post := by
  apply Protocol.follows_bind
  apply Protocol.follows_mono h
  intro result execution after
  cases result with
  | ok a => exact after a rfl
  | error error => exact nofun

theorem safe_mono {action : Relay α} {weaker : α → Execution → Prop}
    (h : Safe assignment policy action execution post)
    (weaken : ∀ a execution, post a execution → weaker a execution) :
    Safe assignment policy action execution weaker :=
  Protocol.follows_mono h fun _ _ after a same => weaken a _ (after a same)

theorem safe_ask {op : RelayOp (Except String α)} (allowed : (legal assignment policy).allowed execution op)
    (h : ∀ a, post a ((legal assignment policy).after execution op (.ok a))) :
    Safe assignment policy (ask op) execution post := by
  refine Protocol.follows_ask allowed fun reply a same => ?_
  rw [same]
  exact h a

theorem safe_check {result : Except String α} (h : ∀ a, result = .ok a → post a execution) :
    Safe assignment policy (check result) execution post := h

/-- An operation that a legal execution does not look at. -/
theorem safe_quiet {op : RelayOp (Except String α)}
    (allowed : (legal assignment policy).allowed execution op)
    (same : ∀ reply, (legal assignment policy).after execution op reply = execution)
    (h : ∀ a, post a execution) : Safe assignment policy (ask op) execution post :=
  safe_ask allowed fun a => (same (.ok a)).symm ▸ h a

theorem safe_files {post : Unit → Execution → Prop} (h : post () execution) :
    Safe assignment policy (ask .files) execution post :=
  safe_quiet trivial (fun _ => rfl) fun _ => h

theorem safe_keep (record : CiRunRecord) (times : Nat) {post : Unit → Execution → Prop}
    (h : post () execution) : Safe assignment policy (keep record times) execution post := by
  induction times with
  | zero => exact safe_pure h
  | succ times ih =>
    refine safe_bind (safe_quiet trivial (fun _ => rfl) fun _ => ?_)
    refine safe_bind (safe_quiet trivial (fun _ => rfl) fun lost => ?_)
    cases lost with
    | true => exact safe_bind safe_throw
    | false => exact ih

theorem safe_receive (record : CiRunRecord) {post : ReceivedFrame → Execution → Prop}
    (h : ∀ frame, post frame (observe execution frame.val)) :
    Safe assignment policy (receive record) execution post := by
  refine safe_bind (safe_quiet trivial (fun _ => rfl) fun times => ?_)
  refine safe_bind (safe_keep record times ?_)
  exact safe_ask trivial h

/-- Only an event announces anything. -/
theorem observe_other {frame : CiVmFrame} (other : frame.type ≠ .event) :
    observe execution frame = execution := by
  rw [observe, announcement, if_neg other]

theorem safe_ack {state : RelayState} {post : RelayState → Execution → Prop}
    (kept : post state execution)
    (cancelled : post { state with cancel_sent := true } { execution with cancelled := true }) :
    Safe assignment policy (ack state) execution post := by
  refine safe_bind (safe_quiet trivial (fun _ => rfl) fun _ => ?_)
  refine safe_bind (safe_quiet trivial (fun _ => rfl) fun lost => ?_)
  cases lost with
  | true => exact safe_bind (safe_ask trivial fun _ => safe_bind safe_throw)
  | false =>
    refine safe_bind (safe_quiet trivial (fun _ => rfl) fun cancel => ?_)
    cases cancel with
    | true => exact safe_bind (safe_ask trivial fun _ => safe_pure cancelled)
    | false => exact safe_bind (safe_ask trivial fun _ => safe_pure kept)

end
end CkGit.Vm
