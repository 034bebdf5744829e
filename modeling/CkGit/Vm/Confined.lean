import CkGit.Vm.Legal

/-!
The relay keeps its state in step with a legal execution, one event at a time,
and so every run of it is one.
-/
namespace CkGit.Vm
open CkGit.Base CkGit.Ci CkGit.Workflow

theorem CiVmOutputGuard.log_ok {guard after : CiVmOutputGuard} {step : Nat} {bytes : UInt64}
    (h : guard.log step bytes = .ok after) : ∃ held, guard.logs[step]? = some held
      ∧ bytes ≤ guard.max_log - held ∧ after = { guard with logs := guard.logs.set step (held + bytes) } := by
  unfold CiVmOutputGuard.log at h
  split at h
  · cases h
  · rename_i held found
    split at h
    · cases h
    · rename_i fits
      rw [not_or] at fits
      exact ⟨held, found, UInt64.not_lt.mp fits.2, (Except.ok.inj h).symm⟩

/-- What is added to a counter below its limit fits below it. -/
theorem counter_fits {held bytes limit : UInt64} (below : held ≤ limit) (fits : bytes ≤ limit - held) :
    (held + bytes).toNat = held.toNat + bytes.toNat ∧ held + bytes ≤ limit := by
  have room := UInt64.le_iff_toNat_le.mp fits
  have held_le := UInt64.le_iff_toNat_le.mp below
  have limit_lt := limit.toNat_lt
  rw [UInt64.toNat_sub_of_le _ _ below] at room
  have sum : (held + bytes).toNat = held.toNat + bytes.toNat := by
    rw [UInt64.toNat_add]
    exact Nat.mod_eq_of_lt (by omega)
  refine ⟨sum, UInt64.le_iff_toNat_le.mpr ?_⟩
  rw [sum]
  omega

/-- The size of a chunk that was taken is that of its payload. -/
theorem chunk_size {chunk : ReceivedFrame} {q : Prop} [Decidable q] {text : String} {u : Unit}
    (well : rejectIf (chunk.val.type ≠ .chunk ∨ q) text = .ok u) :
    chunk.val.type = .chunk ∧ (UInt64.ofNat chunk.val.payload.length).toNat = chunk.val.payload.length := by
  have good := rejectIf_ok.mp well
  rw [not_or, not_not] at good
  have few := chunk.property
  rw [good.1] at few
  have small : limit .chunk < 2 ^ 64 := by decide
  rw [UInt64.toNat_ofNat']
  exact ⟨good.1, Nat.mod_eq_of_lt (by omega)⟩

theorem CiVmOutputGuard.beginArtifact_ok {guard after : CiVmOutputGuard} {job : Nat} {bytes : UInt64}
    {artifact : CiArtifact} (h : guard.beginArtifact job bytes = .ok (artifact, after)) :
    guard.artifacts[job]? = some false ∧ guard.declares job = some artifact
      ∧ guard.artifact_open = false ∧ bytes ≤ guard.max_artifact
      ∧ after = { guard with artifacts := guard.artifacts.set job true
                             artifact_remaining := bytes, artifact_open := true } := by
  unfold CiVmOutputGuard.beginArtifact at h
  split at h
  · rename_i fresh declared
    split at h
    · cases h
    · rename_i fits
      rw [not_or] at fits
      obtain ⟨rfl, rfl⟩ := Prod.mk.inj (Except.ok.inj h)
      exact ⟨fresh, declared, by simpa using fits.1, UInt64.not_lt.mp fits.2, rfl⟩
  · cases h

theorem CiVmOutputGuard.artifactChunk_ok {guard after : CiVmOutputGuard} {bytes : UInt64}
    (h : guard.artifactChunk bytes = .ok after) : bytes ≤ guard.artifact_remaining
      ∧ after = { guard with artifact_remaining := guard.artifact_remaining - bytes } := by
  unfold CiVmOutputGuard.artifactChunk at h
  split at h
  · cases h
  · rename_i fits
    simp only [not_or] at fits
    exact ⟨UInt64.not_lt.mp fits.2.2.2, (Except.ok.inj h).symm⟩

theorem CiVmOutputGuard.endArtifact_ok {guard after : CiVmOutputGuard} (h : guard.endArtifact = .ok after) :
    guard.artifact_remaining = 0 ∧ after = { guard with artifact_open := false } := by
  unfold CiVmOutputGuard.endArtifact at h
  split at h
  · cases h
  · rename_i complete
    rw [not_or] at complete
    exact ⟨not_not.mp complete.2, (Except.ok.inj h).symm⟩

theorem all_passed {steps : List CiStepResult} (earlier : ∀ step ∈ steps.dropLast, passed step = true)
    (last : lastPassed steps = true) : ∀ step ∈ steps, passed step = true := by
  intro step member
  rw [lastPassed, Option.any_eq_true] at last
  obtain ⟨final, there, good⟩ := last
  obtain ⟨front, rfl⟩ := List.getLast?_eq_some_iff.mp there
  rw [List.dropLast_concat] at earlier
  rcases List.mem_append.mp member with old | new
  · exact earlier step old
  · exact List.mem_singleton.mp new ▸ good

/-- The relay's state and the execution its calls tell. -/
structure Agrees (assignment : CiPreparedJob) (policy : CiRemotePolicy) (state : RelayState)
    (execution : Execution) : Prop where
  started : execution.started = state.started
  steps : execution.steps = state.record.steps
  active : execution.active = state.active_step
  pages : execution.pages = state.pages
  cancelled : execution.cancelled = state.cancel_sent
  named : state.record.steps.map (·.name) = (stepNames assignment).take state.record.steps.length
  earlier : ∀ step ∈ state.record.steps.dropLast, passed step = true
  running : state.active_step = true → state.started = true
    ∧ state.record.steps.length < total assignment ∧ ∀ step ∈ state.record.steps, passed step = true
  /-- The guard is the assignment's. -/
  guarded : state.limits.assignment = assignment ∧ state.limits.max_log = policy.max_log_bytes
    ∧ state.limits.max_artifact = policy.artifact_max_bytes
  closed : state.limits.artifact_open = false
  covers : state.limits.logs.length = total assignment
  bounded : ∀ held ∈ state.limits.logs, held ≤ state.limits.max_log
  logged : state.active_step = true → ∃ held,
    state.limits.logs[state.record.steps.length]? = some held ∧ held.toNat = execution.logged
  /-- Nothing is logged of a step that has not started. -/
  fresh : ∀ step held, state.limits.logs[step]? = some held → state.record.steps.length < step
    ∨ (step = state.record.steps.length ∧ state.active_step = false) → held = 0
  stored : ∀ job ∈ execution.stored, state.limits.artifacts[job]? = some true

section
variable {assignment : CiPreparedJob} {policy : CiRemotePolicy} {state : RelayState}
  {execution : Execution}

/-- What an announcement changes is not the relay's. -/
theorem Agrees.observe (h : Agrees assignment policy state execution) (frame : CiVmFrame) :
    Agrees assignment policy state (observe execution frame) := by
  unfold CkGit.Vm.observe
  split
  · exact { h with }
  · exact h

theorem Agrees.ack (h : Agrees assignment policy state execution) :
    Safe assignment policy (ack state) execution (Agrees assignment policy) :=
  safe_ack h { h with cancelled := rfl }

theorem onStarted_safe (h : Agrees assignment policy state execution) (idle : ¬ state.started)
    (epoch : Bytes) :
    Safe assignment policy (onStarted state epoch) execution (Agrees assignment policy) := by
  have unstarted : state.started = false := by simpa using idle
  refine safe_bind (safe_check fun epoch _ => safe_bind (safe_check fun _ _ => ?_))
  refine safe_bind (safe_ask (h.started.trans unstarted) fun _ => Agrees.ack ?_)
  exact { h with started := rfl, running := fun running => ⟨rfl, (h.running running).2⟩ }

theorem onStepStart_safe (h : Agrees assignment policy state execution) (started : state.started)
    (idle : ¬ state.active_step) (index : Bytes) :
    Safe assignment policy (onStepStart assignment state index) execution (Agrees assignment policy) := by
  have inactive : state.active_step = false := by simpa using idle
  refine safe_bind (safe_check fun number _ => ?_)
  split
  case isFalse => exact safe_throw
  case isTrue next =>
    obtain ⟨_, room, last⟩ := next
    have good : ∀ step ∈ state.record.steps, passed step = true := by
      rcases last with empty | last
      · rw [List.isEmpty_iff.mp empty]
        exact nofun
      · exact all_passed h.earlier last
    obtain ⟨held, there⟩ : ∃ held, state.limits.logs[state.record.steps.length]? = some held :=
      ⟨_, List.getElem?_eq_getElem (by rw [h.covers]; exact room)⟩
    refine safe_bind (safe_ask ⟨h.started.trans started, h.active.trans inactive,
      congrArg List.length h.steps.symm, room, h.steps ▸ good⟩ fun _ => Agrees.ack ?_)
    refine { h with active := rfl, running := fun _ => ⟨started, room, good⟩, logged := fun _ => ?_
                    fresh := fun step other found later => ?_ }
    · refine ⟨held, there, ?_⟩
      rw [h.fresh _ held there (.inr ⟨rfl, inactive⟩)]
      rfl
    · rcases later with beyond | ⟨_, stopped⟩
      · exact h.fresh step other found (.inl beyond)
      · cases stopped

theorem onLog_safe (h : Agrees assignment policy state execution) (active : state.active_step)
    (index : Bytes) :
    Safe assignment policy (onLog state index) execution (Agrees assignment policy) := by
  refine safe_bind (safe_check fun number _ => ?_)
  split
  case isFalse => exact safe_throw
  case isTrue =>
    refine safe_bind (safe_receive _ fun chunk => safe_bind (safe_check fun _ well => ?_))
    obtain ⟨chunked, size⟩ := chunk_size well
    rw [observe_other (by rw [chunked]; decide)]
    refine safe_bind (safe_check fun limits logs => ?_)
    obtain ⟨held, there, fits, rfl⟩ := CiVmOutputGuard.log_ok logs
    obtain ⟨count, found, counted⟩ := h.logged active
    obtain rfl : held = count := Option.some.inj (there.symm.trans found)
    have below := h.bounded held (List.mem_of_getElem? there)
    obtain ⟨exact_sum, still⟩ := counter_fits below fits
    rw [size] at exact_sum
    have allowed : execution.logged + chunk.val.payload.length ≤ policy.max_log_bytes.toNat := by
      rw [← counted, ← exact_sum, ← h.guarded.2.1]
      exact UInt64.le_iff_toNat_le.mp still
    refine safe_bind (safe_ask ⟨h.active.trans active, congrArg List.length h.steps.symm, allowed⟩
      fun _ => Agrees.ack ?_)
    refine { h with covers := ?_, bounded := fun other member => ?_, logged := fun _ => ?_
                    fresh := fun step other found later => ?_ }
    · rw [List.length_set, h.covers]
    · rcases List.mem_or_eq_of_mem_set member with old | rfl
      · exact h.bounded other old
      · exact still
    · refine ⟨_, List.getElem?_set_self (List.getElem?_eq_some_iff.mp there).1, ?_⟩
      rw [exact_sum, counted]
      rfl
    · rcases later with beyond | ⟨_, stopped⟩
      · rw [List.getElem?_set_ne (Nat.ne_of_lt beyond)] at found
        exact h.fresh step other found (.inl beyond)
      · rw [show state.active_step = false from stopped] at active
        cases active

theorem onStepEnd_safe (h : Agrees assignment policy state execution) (active : state.active_step)
    (index exit timed_out truncated name : Bytes) :
    Safe assignment policy (onStepEnd assignment state index exit timed_out truncated name) execution
      (Agrees assignment policy) := by
  refine safe_bind (safe_check fun number _ => ?_)
  split
  case isFalse => exact safe_throw
  case isTrue =>
    refine safe_bind (safe_check fun name _ => safe_bind (safe_check fun code _ => ?_))
    refine safe_bind (safe_check fun _ known => ?_)
    have own : (stepNames assignment)[state.record.steps.length]? = some name :=
      not_not.mp (rejectIf_ok.mp known)
    obtain ⟨started, room, good⟩ := h.running active
    refine safe_bind (safe_ask ⟨h.active.trans active, congrArg List.length h.steps.symm,
      _, congrArg (· ++ _) h.steps.symm, own⟩ fun _ => Agrees.ack ?_)
    refine { h with steps := rfl, active := rfl, named := ?_, earlier := ?_, running := by intros; contradiction
                    logged := by intros; contradiction, fresh := fun step other found later => ?_ }
    · simp only [List.map_append, List.length_append, List.map_cons, List.map_nil, List.length_cons,
        List.length_nil, Nat.zero_add]
      rw [h.named, List.take_add_one, own]
      rfl
    · simp only [List.dropLast_concat]
      exact good
    · simp only [List.length_append, List.length_cons, List.length_nil, Nat.zero_add] at later
      exact h.fresh step other found (.inl (by omega))

theorem onProgress_safe (h : Agrees assignment policy state execution) (started : state.started)
    (detail : Bytes) :
    Safe assignment policy (onProgress state detail) execution (Agrees assignment policy) := by
  refine safe_bind (safe_check fun detail _ => ?_)
  refine safe_bind (safe_ask (h.started.trans started) fun _ => Agrees.ack ?_)
  exact { h with }

/-- A chunk or the end of a bundle announces nothing. -/
theorem safe_part (record : CiRunRecord) {post : ReceivedFrame → Execution → Prop}
    (h : ∀ frame, frame.val.type ≠ .event → post frame execution)
    (events : ∀ frame after, frame.val.type = .event → post frame after) :
    Safe assignment policy (receive record) execution post := by
  apply safe_receive
  intro frame
  by_cases event : frame.val.type = .event
  · exact events frame _ event
  · rw [observe_other event]
    exact h frame event

theorem artifactChunks_safe (record : CiRunRecord) (rounds : Nat) (remaining : UInt64)
    (limits : CiVmOutputGuard) (bundle : Bytes) (same : limits.artifact_remaining = remaining) :
    Safe assignment policy (artifactChunks record rounds remaining limits bundle) execution
      fun result after => after = execution
        ∧ result.1 = { limits with artifact_remaining := result.1.artifact_remaining }
        ∧ result.2.length + result.1.artifact_remaining.toNat = bundle.length + remaining.toNat := by
  induction rounds generalizing remaining limits bundle with
  | zero => exact safe_pure ⟨rfl, rfl, by rw [same]⟩
  | succ rounds ih =>
    unfold artifactChunks
    split
    · exact safe_pure ⟨rfl, rfl, by rw [same]⟩
    · refine safe_bind (safe_part record (fun chunk _ => ?_) fun chunk after event => ?_)
      · refine safe_bind (safe_check fun _ well => safe_bind (safe_check fun next taken => ?_))
        refine safe_bind (safe_files ?_)
        obtain ⟨fits, rfl⟩ := CiVmOutputGuard.artifactChunk_ok taken
        obtain ⟨-, size⟩ := chunk_size well
        refine safe_mono (ih _ _ _ (by rw [same])) ?_
        rintro ⟨last, whole⟩ after ⟨kept, shape, sum⟩
        refine ⟨kept, shape, sum.trans ?_⟩
        have enough := UInt64.le_iff_toNat_le.mp fits
        rw [same] at fits enough
        rw [UInt64.toNat_sub_of_le _ _ fits, List.length_append, size]
        rw [size] at enough
        omega
      · refine safe_bind (safe_check fun _ well => ?_)
        have good := rejectIf_ok.mp well
        rw [event] at good
        exact absurd (.inl (by decide)) good

theorem pagesChunks_safe (record : CiRunRecord) (rounds : Nat) (remaining : UInt64) :
    Safe assignment policy (pagesChunks record rounds remaining) execution
      fun _ after => after = execution := by
  induction rounds generalizing remaining with
  | zero => exact safe_pure rfl
  | succ rounds ih =>
    unfold pagesChunks
    split
    · exact safe_pure rfl
    · refine safe_bind (safe_part record (fun chunk _ => ?_) fun chunk after event => ?_)
      · exact safe_bind (safe_check fun _ _ => safe_bind (safe_files (ih _)))
      · refine safe_bind (safe_check fun _ well => ?_)
        have good := rejectIf_ok.mp well
        rw [event] at good
        exact absurd (.inl (by decide)) good

theorem receiveEnd_safe (record : CiRunRecord) (text : String) {post : Unit → Execution → Prop}
    (h : post () execution) : Safe assignment policy (receiveEnd record text) execution post := by
  refine safe_bind (safe_part record (fun done _ => safe_check fun _ _ => h) fun done after event => ?_)
  refine safe_check fun _ well => ?_
  have good := rejectIf_ok.mp well
  rw [event] at good
  exact absurd (.inl (by decide)) good

theorem eventNumber_lt {text : Bytes} {n : Nat} (h : eventNumber text = .ok n) : n < 2 ^ 64 := by
  unfold eventNumber at h
  split at h
  · rename_i m parsed
    split at h
    · rw [← Except.ok.inj h]
      exact Nat.lt_of_le_pred (by decide) (parseDecimal_le parsed)
    · cases h
  · cases h

/-- An artifact that was put is not put again. -/
theorem Agrees.put (h : Agrees assignment policy state execution) {job size : Nat}
    (announced : execution.announced = some (job, size))
    (begun : state.limits.artifacts[job]? = some false) {left : UInt64} (artifact : CiArtifact)
    (bundle : Option Bytes) (note : Bytes) (release : Bool) (outputs : List CiDeclaredOutput) :
    Agrees assignment policy
      { state with
        limits := { state.limits with artifacts := state.limits.artifacts.set job true
                                      artifact_remaining := left, artifact_open := false }
        outputs }
      (callAfter execution (.putArtifact artifact bundle note release)) := by
  refine { h with closed := rfl, stored := fun other member => ?_ }
  rw [callAfter, announced] at member
  by_cases same : other = job
  · subst same
    exact List.getElem?_set_self (List.getElem?_eq_some_iff.mp begun).1
  · rw [List.getElem?_set_ne (Ne.symm same)]
    refine h.stored other ?_
    simpa [same] using member

theorem onArtifact_safe (h : Agrees assignment policy state execution) (started : state.started)
    (idle : ¬ state.active_step) {job size : Bytes} (note : Bytes)
    (announced : ∀ j s, eventNumber job = .ok j → eventNumber size = .ok s →
      execution.announced = some (j, s)) :
    Safe assignment policy (onArtifact assignment state job size note) execution
      (Agrees assignment policy) := by
  have inactive : state.active_step = false := by simpa using idle
  refine safe_bind (safe_check fun j job_number => safe_bind (safe_check fun s size_number => ?_))
  refine safe_bind (safe_check fun note _ => safe_bind (safe_check fun begun starts => ?_))
  obtain ⟨artifact, limits⟩ := begun
  obtain ⟨fresh, declared, -, within_limit, rfl⟩ := CiVmOutputGuard.beginArtifact_ok starts
  refine safe_bind (safe_check fun _ early => safe_bind (safe_check fun _ bare => ?_))
  have known := announced j s job_number size_number
  have size_exact : (UInt64.ofNat s).toNat = s := by
    rw [UInt64.toNat_ofNat']
    exact Nat.mod_eq_of_lt (eventNumber_lt size_number)
  have done : stepsUpTo assignment j ≤ state.record.steps.length ∧ lastPassed state.record.steps := by
    have timely := rejectIf_ok.mp early
    rw [not_or] at timely
    exact ⟨Nat.not_lt.mp timely.1, not_not.mp timely.2⟩
  have unstored : j ∉ execution.stored := by
    intro member
    rw [h.stored j member] at fresh
    cases fresh
  have owned : assignment.workflow.jobs[j]?.bind (·.artifact) = some artifact := by
    rw [← h.guarded.1]
    exact declared
  have limited : s ≤ policy.artifact_max_bytes.toNat := by
    rw [← size_exact, ← h.guarded.2.2]
    exact UInt64.le_iff_toNat_le.mp within_limit
  -- What a legal execution asks of the bundle is all that differs between the two ways.
  have allowed : ∀ bundle : Option Bytes, (bundle = none ↔ note ≠ []) → bundle.elim 0 List.length = s →
      CallAllowed assignment policy execution
        (.putArtifact artifact bundle note assignment.is_release) := by
    intro bundle noted size
    refine ⟨h.started.trans started, h.active.trans inactive, ?_, noted, rfl, j, s, known, unstored, owned,
      h.steps ▸ done.1, size, limited⟩
    rw [h.steps]
    exact all_passed h.earlier done.2
  simp only
  split
  case isTrue empty =>
    have blank : note = [] := List.isEmpty_iff.mp empty
    refine safe_bind (safe_files ?_)
    refine safe_bind (safe_mono (artifactChunks_safe _ _ _ _ _ rfl) ?_)
    rintro ⟨limits, bundle⟩ after ⟨rfl, shape, sum⟩
    refine safe_bind (receiveEnd_safe _ _ (safe_bind (safe_files ?_)))
    refine safe_bind (safe_check fun ended ends => ?_)
    obtain ⟨nothing, rfl⟩ := CiVmOutputGuard.endArtifact_ok ends
    have size : bundle.length = s := by
      rw [nothing] at sum
      rw [← size_exact]
      simpa using sum
    refine safe_bind (safe_ask (allowed (some bundle) (by simp [blank]) size) fun _ => ?_)
    refine safe_bind (safe_files ?_)
    refine Agrees.ack ?_
    simp only at shape
    rw [shape]
    exact h.put known fresh artifact (some bundle) note assignment.is_release _
  case isFalse filled =>
    have noted : note ≠ [] := fun blank => filled (by rw [blank]; rfl)
    refine safe_bind (safe_check fun ended ends => ?_)
    obtain ⟨nothing, rfl⟩ := CiVmOutputGuard.endArtifact_ok ends
    have size : s = 0 := by
      rw [← size_exact, show UInt64.ofNat s = 0 from nothing]
      rfl
    refine safe_bind (safe_ask (allowed none (by simp [noted]) size.symm) fun _ => Agrees.ack ?_)
    exact h.put known fresh artifact none note assignment.is_release _

theorem onPages_safe (h : Agrees assignment policy state execution) (started : state.started)
    (idle : ¬ state.active_step) (first : ¬ state.pages) (on_default : assignment.is_default_branch)
    (no_release : ¬ assignment.is_release) (declared : assignment.workflow.pages_path.isSome)
    (complete : state.record.steps.length = total assignment) (last : lastPassed state.record.steps)
    (size : Bytes) :
    Safe assignment policy (onPages state size) execution (Agrees assignment policy) := by
  have inactive : state.active_step = false := by simpa using idle
  have unpublished : state.pages = false := by simpa using first
  have unreleased : assignment.is_release = false := by simpa using no_release
  refine safe_bind (safe_check fun size _ => safe_bind (safe_check fun _ _ => ?_))
  refine safe_bind (safe_files (safe_bind (safe_mono (pagesChunks_safe _ _ _) ?_)))
  rintro _ after rfl
  refine safe_bind (receiveEnd_safe _ _ (safe_bind (safe_files ?_)))
  refine safe_bind (safe_quiet trivial (fun _ => rfl) fun times => ?_)
  refine safe_bind (safe_keep _ _ (safe_bind (safe_files ?_)))
  refine safe_bind (safe_ask ⟨h.started.trans started, h.active.trans inactive, h.pages.trans unpublished,
    on_default, unreleased, declared, (congrArg List.length h.steps).trans complete, ?_⟩ fun _ => ?_)
  · rw [h.steps]
    exact all_passed h.earlier last
  · refine safe_bind (safe_files (Agrees.ack ?_))
    exact { h with pages := rfl }

theorem onEvent_safe (h : Agrees assignment policy state execution) {frame : CiVmFrame}
    (event : frame.type = .event) :
    Safe assignment policy (onEvent assignment state frame.payload) (observe execution frame)
      (Agrees assignment policy) := by
  have seen := h.observe frame
  refine safe_bind (safe_check fun parts split_fields => ?_)
  match parts, split_fields with
  | [], _ => exact safe_throw
  | [name], _ =>
    simp only
    split
    · exact safe_bind (safe_quiet trivial (fun _ => rfl) fun _ => seen.ack)
    · split
      · exact safe_bind (safe_quiet trivial (fun _ => rfl) fun _ => seen.ack)
      · exact safe_throw
  | [name, value], _ =>
    simp only
    split
    · rename_i start
      exact onStarted_safe seen start.2 value
    split
    · rename_i start
      exact onStepStart_safe seen start.2.1 start.2.2 value
    split
    · rename_i start
      exact onLog_safe seen start.2 value
    split
    · rename_i start
      exact onProgress_safe seen start.2 value
    split
    · rename_i start
      obtain ⟨_, started, idle, first, on_default, no_release, declared, complete, last⟩ := start
      exact onPages_safe seen started idle first on_default no_release declared complete last value
    · exact safe_throw
  | [name, job, size, note], split_fields =>
    simp only
    split
    · rename_i start
      refine onArtifact_safe seen start.2.1 start.2.2 note fun j s job_number size_number => ?_
      have told : announcement frame = some (j, s) := by
        simp only [announcement, if_pos event, split_fields, job_number, size_number, if_pos start.1]
      rw [observe, told]
    · exact safe_throw
  | [name, index, exit, timed_out, truncated, step], _ =>
    simp only
    split
    · rename_i start
      exact onStepEnd_safe seen start.2 index exit timed_out truncated step
    · exact safe_throw
  | [_, _, _], _ => exact safe_throw
  | [_, _, _, _, _], _ => exact safe_throw
  | _ :: _ :: _ :: _ :: _ :: _ :: _ :: _, _ => exact safe_throw

/-- A terminal record with success is one of a complete execution. -/
theorem onDone_safe (h : Agrees assignment policy state execution) (payload : Bytes) :
    Safe assignment policy (onDone assignment state payload) execution fun record execution =>
      record.status = .success → Succeeded assignment execution record := by
  refine safe_bind (safe_check fun report _ => safe_bind (safe_check fun _ obeyed => ?_))
  refine safe_bind (safe_check fun _ consistent => safe_bind (safe_check fun _ _ => ?_))
  refine safe_bind (safe_check fun _ _ => safe_bind (safe_check fun _ complete => ?_))
  refine safe_bind (safe_check fun _ good => safe_bind ?_)
  simp only [rejectIf_ok] at obeyed consistent complete good
  have succeeded : report.status = .success → state.cancel_sent = false →
      Succeeded assignment execution
        { state.record with started_epoch_seconds := report.started_epoch_seconds
                            status := report.status, detail := report.detail } := by
    intro success uncancelled
    have whole : ¬ (¬ state.started ∨ state.record.steps.length ≠ (stepNames assignment).length) :=
      fun part => complete ⟨success, part⟩
    rw [not_or, not_not, not_not] at whole
    have every := fun failed => good ⟨success, failed⟩
    refine ⟨h.started.trans whole.1, h.steps.symm, ?_, fun step member => ?_, h.cancelled.trans uncancelled⟩
    · rw [h.named, whole.2]
      exact List.take_length
    · have step_passed : passed step = true := by
        by_contra failed
        exact every (List.any_eq_true.mpr ⟨step, member, by simpa using failed⟩)
      simpa [passed] using step_passed
  refine safe_ack ?_ ?_
  · split
    · exact safe_pure nofun
    · rename_i kept
      refine safe_pure fun success => succeeded success ?_
      by_contra sent
      exact kept ⟨by simpa using sent, by rw [success]; decide⟩
  · split
    · exact safe_pure nofun
    · rename_i kept
      refine safe_pure fun success => ?_
      exact absurd ⟨rfl, by rw [success]; decide⟩ kept

theorem relayRounds_safe (h : Agrees assignment policy state execution) (rounds : Nat) :
    Safe assignment policy (relayRounds assignment rounds state) execution fun result execution =>
      ∀ record, result = some record → record.status = .success →
        Succeeded assignment execution record := by
  induction rounds generalizing state execution with
  | zero =>
    refine safe_pure fun record same => ?_
    cases same
  | succ rounds ih =>
    refine safe_bind (safe_receive _ fun frame => ?_)
    have seen := h.observe frame.val
    split
    · exact safe_throw
    · refine safe_bind (safe_mono (onDone_safe seen _) fun record execution ended => ?_)
      exact safe_pure fun other same => Option.some.inj same ▸ ended
    · rename_i event
      exact safe_bind (safe_mono (onEvent_safe h event) fun state execution kept => ih kept)
    · exact safe_throw

end
end CkGit.Vm
