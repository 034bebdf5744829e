import CkGit.Vm.Confined

/-!
An untrusted guest produces a well-formed run only, and the guard's counters
hold what was counted.
-/
namespace CkGit.Vm
open CkGit.Base CkGit.Ci CkGit.Workflow

/-- One use of the guard. -/
inductive GuardUse where
  | log (step : Nat) (bytes : UInt64)
  | beginArtifact (job : Nat) (declared_bytes : UInt64)
  | artifactChunk (bytes : UInt64)
  | endArtifact

def CiVmOutputGuard.use (guard : CiVmOutputGuard) (use : GuardUse) : Except String CiVmOutputGuard :=
  match use with
  | .log step bytes => guard.log step bytes
  | .beginArtifact job bytes => (guard.beginArtifact job bytes).map Prod.snd
  | .artifactChunk bytes => guard.artifactChunk bytes
  | .endArtifact => guard.endArtifact

/-- The counters as they would be without a word's bound. -/
structure Ledger where
  logs : List Nat
  remaining : Int := 0

namespace Ledger

def after (ledger : Ledger) (use : GuardUse) : Ledger :=
  match use with
  | .log step bytes => { ledger with logs := ledger.logs.modify step (· + bytes.toNat) }
  | .beginArtifact _ bytes => { ledger with remaining := bytes.toNat }
  | .artifactChunk bytes => { ledger with remaining := ledger.remaining - bytes.toNat }
  | .endArtifact => ledger

/-- The guard counts exactly, and no log is beyond the limit. -/
structure Kept (guard : CiVmOutputGuard) (ledger : Ledger) : Prop where
  logs : guard.logs.map (·.toNat) = ledger.logs
  within : ∀ held ∈ ledger.logs, held ≤ guard.max_log.toNat
  remaining : (guard.artifact_remaining.toNat : Int) = ledger.remaining

theorem Kept.use {guard after : CiVmOutputGuard} {ledger : Ledger} (kept : ledger.Kept guard)
    {use : GuardUse} (h : guard.use use = .ok after) : (ledger.after use).Kept after := by
  cases use with
  | log step bytes =>
    obtain ⟨held, there, fits, rfl⟩ := CiVmOutputGuard.log_ok h
    have held_below : held ≤ guard.max_log := by
      refine UInt64.le_iff_toNat_le.mpr (kept.within _ ?_)
      rw [← kept.logs]
      exact List.mem_map_of_mem (List.mem_of_getElem? there)
    obtain ⟨sum, below⟩ := counter_fits held_below fits
    have counted : (guard.logs.set step (held + bytes)).map (·.toNat)
        = (ledger.after (.log step bytes)).logs := by
      simp only [after, ← kept.logs]
      rw [List.map_set, sum, List.modify_eq_set, List.getElem?_map, there]
      rfl
    refine ⟨counted, ?_, kept.remaining⟩
    rw [← counted]
    intro other member
    obtain ⟨word, place, rfl⟩ := List.mem_map.mp member
    rcases List.mem_or_eq_of_mem_set place with old | rfl
    · refine kept.within _ ?_
      rw [← kept.logs]
      exact List.mem_map_of_mem old
    · exact UInt64.le_iff_toNat_le.mp below
  | beginArtifact job bytes =>
    obtain ⟨⟨artifact, begun⟩, starts, rfl⟩ := map_ok.mp h
    obtain ⟨-, -, -, -, rfl⟩ := CiVmOutputGuard.beginArtifact_ok starts
    exact ⟨kept.logs, kept.within, rfl⟩
  | artifactChunk bytes =>
    obtain ⟨fits, rfl⟩ := CiVmOutputGuard.artifactChunk_ok h
    have enough := UInt64.le_iff_toNat_le.mp fits
    refine ⟨kept.logs, kept.within, ?_⟩
    simp only [after, ← kept.remaining]
    rw [UInt64.toNat_sub_of_le _ _ fits]
    omega
  | endArtifact =>
    obtain ⟨-, rfl⟩ := CiVmOutputGuard.endArtifact_ok h
    exact ⟨kept.logs, kept.within, kept.remaining⟩

end Ledger

/-- The guard and its ledger after these uses; a use it refuses changes neither. -/
def counting (guard : CiVmOutputGuard) (ledger : Ledger) (uses : List GuardUse) :
    CiVmOutputGuard × Ledger :=
  match uses with
  | [] => (guard, ledger)
  | use :: rest =>
    match guard.use use with
    | .ok after => counting after (ledger.after use) rest
    | .error _ => counting guard ledger rest

theorem counting_kept {guard : CiVmOutputGuard} {ledger : Ledger} (kept : ledger.Kept guard)
    (uses : List GuardUse) : (counting guard ledger uses).2.Kept (counting guard ledger uses).1 := by
  induction uses generalizing guard ledger with
  | nil => exact kept
  | cons use rest ih =>
    rw [counting]
    split
    · rename_i after used
      exact ih (kept.use used)
    · exact ih kept

section
variable {assignment : CiPreparedJob} {policy : CiRemotePolicy} {limits : CiVmOutputGuard}

theorem create_ok (h : CiVmOutputGuard.create assignment policy = .ok limits) :
    limits = { assignment, max_log := policy.max_log_bytes, max_artifact := policy.artifact_max_bytes
               logs := assignment.workflow.jobs.flatMap fun job => List.replicate job.steps.length 0
               artifacts := List.replicate assignment.workflow.jobs.length false } := by
  simp only [CiVmOutputGuard.create, bind_ok, rejectIf_ok, pure_ok] at h
  obtain ⟨_, _, _, _, rfl⟩ := h
  rfl

/-- A counter for every step. -/
theorem create_covers (jobs : List CiJob) :
    (jobs.flatMap fun job => List.replicate job.steps.length (0 : UInt64)).length
      = (jobs.flatMap fun job => job.steps.map fun step =>
          if step.name.isEmpty then job.name else step.name).length := by
  simp only [List.length_flatMap, List.length_replicate, List.length_map]

theorem create_zero (h : CiVmOutputGuard.create assignment policy = .ok limits) :
    ∀ held ∈ limits.logs, held = 0 := by
  rw [create_ok h]
  intro held member
  obtain ⟨job, _, place⟩ := List.mem_flatMap.mp member
  exact List.eq_of_mem_replicate place

theorem agrees_first (h : CiVmOutputGuard.create assignment policy = .ok limits) :
    Agrees assignment policy { record := CiRunRecord.ofAssignment assignment, limits } {} := by
  have zero := create_zero h
  refine { started := rfl, steps := rfl, active := rfl, pages := rfl, cancelled := rfl, named := rfl
           earlier := nofun, running := nofun, guarded := ?_, closed := ?_, covers := ?_, bounded := ?_
           logged := nofun, fresh := ?_, stored := nofun }
  · rw [create_ok h]
    exact ⟨rfl, rfl, rfl⟩
  · rw [create_ok h]
  · rw [create_ok h]
    exact create_covers assignment.workflow.jobs
  · intro held member
    rw [zero held member]
    exact UInt64.zero_le
  · intro step held found _
    exact zero held (List.mem_of_getElem? found)

theorem kept_first (h : CiVmOutputGuard.create assignment policy = .ok limits) :
    Ledger.Kept limits { logs := limits.logs.map fun _ => 0 } := by
  have zero := create_zero h
  refine ⟨List.map_congr_left fun held member => ?_, fun held member => ?_, ?_⟩
  · rw [zero held member]
    rfl
  · obtain ⟨_, _, rfl⟩ := List.mem_map.mp member
    exact Nat.zero_le _
  · rw [create_ok h]
    rfl

theorem relayCiVmResults_safe (rounds : Nat) :
    Safe assignment policy (relayCiVmResults assignment policy rounds) {} fun result execution =>
      ∀ record, result = some record → record.status = .success →
        Succeeded assignment execution record :=
  safe_bind (safe_check fun _ created => relayRounds_safe (agrees_first created) rounds)

/-- Whatever the guest sends and the sink answers, the calls so far are those of a legal
execution, a run returned as a success is a complete one, and the guard counts exactly. -/
theorem guest_confined (assignment : CiPreparedJob) (policy : CiRemotePolicy) (rounds : Nat)
    {trace : List (Script.Asked RelayOp)} {result : Option (Except String (Option CiRunRecord))}
    (run : (relayCiVmResults assignment policy rounds).run.Runs trace result) :
    (legal assignment policy).Accepts {} trace
      ∧ (∀ record, result = some (.ok (some record)) → record.status = .success →
          Succeeded assignment ((legal assignment policy).noteAfter {} trace) record)
      ∧ ∀ limits, CiVmOutputGuard.create assignment policy = .ok limits → ∀ uses,
          let (guard, ledger) := counting limits { logs := limits.logs.map fun _ => 0 } uses
          ledger.Kept guard := by
  obtain ⟨accepted, returned⟩ := Protocol.follows_runs (relayCiVmResults_safe rounds) run
  refine ⟨accepted, fun record same => ?_, fun limits created uses => ?_⟩
  · exact returned _ same (some record) rfl record rfl
  · exact counting_kept (kept_first created) uses

/-- One job of one step. -/
def oneStep : CiPreparedJob where
  job := { job_id := ascii "20260101000000-0001-0000000a", project_name := ascii "demo", ref := ascii "main"
           commit_id := [], client_id := [] }
  workflow := { jobs := [{ name := ascii "build", steps := [{ name := ascii "make" }] }] }
  is_release := false
  is_default_branch := true

def eightBytes : CiRemotePolicy where
  max_log_bytes := 8
  artifact_max_bytes := 0

/-- The host asks the sink to go on while it waits for a guest that has not started. -/
def waiting : List (Script.Asked RelayOp) :=
  [⟨_, .waits, .ok 1⟩, ⟨_, .call (.heartbeat (CiRunRecord.ofAssignment oneStep)), .ok ()⟩,
    ⟨_, .leaseLost, .ok false⟩, ⟨_, .receive, .ok ⟨⟨.event, ascii "started 5"⟩, by decide⟩⟩]

private theorem waiting_runs :
    (relayCiVmResults oneStep eightBytes 1).run.Runs waiting none :=
  .asked _ (.asked _ (.asked _ (.asked _ (.so_far _))))

/-- The calls on the sink. -/
def sinkCalls (trace : List (Script.Asked RelayOp)) : List SinkCall :=
  trace.filterMap fun
    | ⟨_, .call call, _⟩ => some call
    | _ => none

/-- The start of the run is not the first call on the sink. -/
theorem heartbeat_first : ∃ trace result record,
    (relayCiVmResults oneStep eightBytes 1).run.Runs trace result
      ∧ (sinkCalls trace).head? = some (.heartbeat record) :=
  ⟨waiting, none, _, waiting_runs, rfl⟩

/-- A job of one step that declares an artifact. -/
def toolJob : CiPreparedJob :=
  { oneStep with
    workflow := { jobs := [{ name := ascii "build", steps := [{ name := ascii "make" }]
                             artifact := some { name := ascii "tool" } }] } }

def toolPolicy : CiRemotePolicy where
  max_log_bytes := 8
  artifact_max_bytes := 4

def toolReport : CiFinishReport where
  status := .success
  started_epoch_seconds := 5
  steps := [{ name := ascii "make" }]
  outputs := [{ name := ascii "tool" }]

/-- The frames of a guest that builds the tool and reports it. -/
def toolFrames : List ReceivedFrame :=
  [⟨⟨.event, ascii "started 5"⟩, by decide +kernel⟩, ⟨⟨.event, ascii "step-start 0"⟩, by decide +kernel⟩,
    ⟨⟨.event, ascii "log 0"⟩, by decide +kernel⟩, ⟨⟨.chunk, ascii "cc tool"⟩, by decide +kernel⟩,
    ⟨⟨.event, ascii "step-end 0 0 0 0 " ++ hexEncode (ascii "make")⟩, by decide +kernel⟩,
    ⟨⟨.event, ascii "artifact 0 3 -"⟩, by decide +kernel⟩, ⟨⟨.chunk, [1, 2, 3]⟩, by decide +kernel⟩,
    ⟨⟨.done, []⟩, by decide +kernel⟩, ⟨⟨.done, formatCiFinishReport toolReport⟩, by decide +kernel⟩]

/-- A sink that takes everything, a channel that waits once for each frame, and these frames. -/
def willing {β : Type} (op : RelayOp β) (frames : List ReceivedFrame) : β × List ReceivedFrame :=
  match op with
  | .waits => (.ok 1, frames)
  | .receive => (match frames with | [] => .error "closed" | frame :: _ => .ok frame, frames.drop 1)
  | .send _ | .call _ | .files => (.ok (), frames)
  | .leaseLost | .cancelRequested => (.ok false, frames)

@[irreducible] def toolRun : List (Script.Asked RelayOp) × Except String (Option CiRunRecord) :=
  (relayCiVmResults toolJob toolPolicy 9).run.play willing toolFrames

private theorem toolRun_runs : (relayCiVmResults toolJob toolPolicy 9).run.Runs toolRun.1 (some toolRun.2) := by
  unfold toolRun
  exact Script.play_runs willing _ toolFrames

/-- The record when the run starts, and with its step. -/
def toolStarted : CiRunRecord := { CiRunRecord.ofAssignment toolJob with started_epoch_seconds := 5 }

def toolBuilt : CiRunRecord := { toolStarted with steps := toolReport.steps }

/-- The run of a guest that builds the tool: every call is allowed and the success is complete. -/
theorem guest_confined_tool :
    (sinkCalls toolRun.1).filter (fun call => call ∉ [.tick, .heartbeat (CiRunRecord.ofAssignment toolJob),
        .heartbeat toolStarted, .heartbeat toolBuilt])
      = [.runStarted toolStarted, .stepStarted toolStarted 0, .appendLog 0 (ascii "cc tool"),
        .stepFinished toolBuilt 0, .putArtifact { name := ascii "tool" } (some [1, 2, 3]) [] false]
    ∧ (legal toolJob toolPolicy).Accepts {} toolRun.1
    ∧ ∃ record, toolRun.2 = .ok (some record)
      ∧ Succeeded toolJob ((legal toolJob toolPolicy).noteAfter {} toolRun.1) record := by
  have status : toolRun.2.toOption.join.map (·.status) = some .success := by decide +kernel
  obtain ⟨record, found, success⟩ := Option.map_eq_some_iff.mp status
  have returned : toolRun.2 = .ok (some record) := ok_of_toOption (Option.join_eq_some_iff.mp found)
  obtain ⟨accepted, complete, _⟩ := guest_confined toolJob toolPolicy 9 toolRun_runs
  exact ⟨by decide +kernel, accepted, record, returned, complete record (congrArg some returned) success⟩

end
end CkGit.Vm
