import CkGit.LogFollow.Model
import CkGit.LogStream.Delivery

/-!
A command that never chooses a step that will not come prints the logs of its
first step and of all later ones and succeeds.
-/
namespace CkGit.LogFollow
open CkGit.Base CkGit.Ci CkGit.LogStream CkGit.Responses

/-- The logs before a step, from the first one on. -/
def logsBefore (logs : List Bytes) (first step : Nat) : Bytes := ((logs.take step).drop first).flatten

/-- A step's log, empty before the step starts. -/
def logAt (logs : List Bytes) (step : Nat) : Bytes := logs[step]?.getD []

/-- Only the log behind the recorded steps grows. -/
structure Grows (steps : Nat) (logs after : List Bytes) : Prop where
  before : after.take steps = logs.take steps
  current : logAt logs steps <+: logAt after steps

variable {steps step first : Nat} {logs after : List Bytes}

theorem Grows.refl (steps : Nat) (logs : List Bytes) : Grows steps logs logs := ⟨rfl, List.prefix_rfl⟩

theorem Grows.logsBefore_eq (h : Grows steps logs after) (known : step ≤ steps) :
    logsBefore after first step = logsBefore logs first step := by
  have same := congrArg (List.take step) h.before
  rw [List.take_take, List.take_take, Nat.min_eq_left known] at same
  rw [logsBefore, same, logsBefore]

theorem Grows.logAt_eq (h : Grows steps logs after) (known : step < steps) : logAt after step = logAt logs step := by
  have same := congrArg (fun part : List Bytes => part[step]?) h.before
  simp only [List.getElem?_take, if_pos known] at same
  rw [logAt, same, logAt]

theorem Grows.logAt_prefix (h : Grows steps logs after) (known : step ≤ steps) : logAt logs step <+: logAt after step := by
  rcases known.lt_or_eq with before | rfl
  · exact ⟨[], by rw [List.append_nil, h.logAt_eq before]⟩
  · exact h.current

theorem grows_start (idle : logs.length = steps) : Grows steps logs (logs ++ [[]]) := by
  subst idle
  refine ⟨by simp, ?_⟩
  simp [logAt]

theorem grows_append {before : List Bytes} {log : Bytes} (bytes : Bytes) (busy : steps = before.length) :
    Grows steps (before ++ [log]) (before ++ [log ++ bytes]) := by
  subst busy
  refine ⟨by simp, ?_⟩
  simp [logAt]

/-- Behind a whole log the next one begins. -/
theorem logsBefore_succ (start : first ≤ step) (there : step < logs.length) :
    logsBefore logs first (step + 1) = logsBefore logs first step ++ logAt logs step := by
  have log : logs[step]? = some logs[step] := List.getElem?_eq_getElem there
  rw [logsBefore, List.take_add_one, log, List.drop_append_of_le_length (by simp; omega), List.flatten_append, logAt, log]
  simp [logsBefore]

theorem fetch_eq (answer : CiLogChunk) (short : answer.bytes.length ≤ kMaximumControlLogChunkBytes) :
    fetchCiLogChunk answer answer.offset = some answer := by
  rw [fetchCiLogChunk, formatCiLogControlResponse, if_neg (by omega), Option.bind_eq_bind, Option.bind_some]
  exact log_round_trip.mpr ⟨rfl, if_neg (by omega)⟩

theorem chunk_short (log : Bytes) (offset cap : Nat) : (readCiRunLogChunk log offset cap).length ≤ cap := by
  unfold readCiRunLogChunk
  split
  · exact Nat.zero_le _
  · rw [List.length_take, List.length_drop]
    omega

/-- A chunk that is not full reaches the end of the log. -/
theorem chunk_end {log : Bytes} {offset cap : Nat} (bound : offset ≤ log.length)
    (short : (readCiRunLogChunk log offset cap).length < cap) :
    offset + (readCiRunLogChunk log offset cap).length = log.length := by
  unfold readCiRunLogChunk at short ⊢
  split
  · simp only [List.length_nil]
    omega
  · rename_i inside
    rw [if_neg inside, List.length_take, List.length_drop] at short
    rw [List.length_take, List.length_drop]
    omega

/-- Under a fresh heartbeat the display follows the record. -/
theorem display_active {world : World} (fresh : Fresh world) :
    ciRunDisplayActive world.record world.now = ciRunStatusIsActive world.record.status := by
  cases status : world.record.status with
  | running =>
    rw [fresh status]
    rfl
  | pending =>
    simp only [ciRunDisplayActive, status]
    rfl
  | _ =>
    simp only [ciRunDisplayActive, status]
    rfl

/-- What is printed when the log of a step is printed up to an offset. -/
structure Printing (world : World) (step : Nat) (offset : UInt64) : Prop where
  chosen : step < world.total
  known : step ≤ world.record.steps
  start : world.first ≤ step
  inside : offset.toNat ≤ (logAt world.logs step).length
  printed : world.printed = logsBefore world.logs world.first step ++ (logAt world.logs step).take offset.toNat

/-- What each point of the command has printed. -/
structure PhaseSound (world : World) : Prop where
  begin : world.phase = .begin → world.printed = []
  asking : ∀ step offset, world.phase = .asking step offset → Printing world step offset
  answering : ∀ step offset may_still_write, world.phase = .answering step offset may_still_write →
    Printing world step offset ∧ (may_still_write = false → step < world.record.steps)
  advancing : ∀ step, world.phase = .advancing step → world.first ≤ step ∧ step < world.record.steps ∧
    world.printed = logsBefore world.logs world.first (step + 1)
  closing : world.phase = .closing → ciRunStatusIsActive world.record.status = false ∧
    world.printed = (world.logs.drop world.first).flatten
  returned : ∀ code, world.phase = .returned code → ciRunStatusIsActive world.record.status = false ∧ code = 0 ∧
    world.printed = (world.logs.drop world.first).flatten

structure Sound (world : World) : Prop where
  fresh : Fresh world
  started : world.record.steps ≤ world.logs.length
  one : world.logs.length ≤ world.record.steps + 1
  total : world.logs.length ≤ world.total
  ended : ciRunStatusIsActive world.record.status = false →
    world.logs.length = world.record.steps ∧ world.record.steps = world.total
  small : ∀ log ∈ world.logs, log.length < 2 ^ 64
  phase : PhaseSound world

theorem Sound.followed {world : World} (h : Sound world) : Followed world := fun code returned =>
  (h.phase.returned code returned).2

variable {world : World}

/-- The runner's steps keep what is printed. -/
theorem phase_kept {record : RunRecord} {now : Nat} (h : PhaseSound world) (known : world.record.steps ≤ record.steps)
    (grows : Grows world.record.steps world.logs after)
    (last : ciRunStatusIsActive world.record.status = false → ciRunStatusIsActive record.status = false ∧ after = world.logs) :
    PhaseSound { world with record, now, logs := after } := by
  have printing {step : Nat} {offset : UInt64} (p : Printing world step offset) :
      Printing { world with record, now, logs := after } step offset := by
    have grown := grows.logAt_prefix p.known
    refine ⟨p.chosen, p.known.trans known, p.start, p.inside.trans grown.length_le, ?_⟩
    have same : (logAt after step).take offset.toNat = (logAt world.logs step).take offset.toNat := by
      obtain ⟨more, whole⟩ := grown
      rw [← whole, List.take_append_of_le_length p.inside]
    change world.printed = logsBefore after world.first step ++ (logAt after step).take offset.toNat
    rw [grows.logsBefore_eq p.known, same, p.printed]
  refine ⟨h.begin, fun step offset phase => printing (h.asking step offset phase), fun step offset may phase => ?_,
    fun step phase => ?_, fun phase => ?_, fun code phase => ?_⟩
  · obtain ⟨p, done⟩ := h.answering step offset may phase
    exact ⟨printing p, fun complete => (done complete).trans_le known⟩
  · obtain ⟨start, recorded, printed⟩ := h.advancing step phase
    exact ⟨start, recorded.trans_le known, printed.trans (grows.logsBefore_eq recorded).symm⟩
  · obtain ⟨ended, printed⟩ := h.closing phase
    obtain ⟨still, same⟩ := last ended
    exact ⟨still, printed.trans (by rw [same])⟩
  · obtain ⟨ended, success, printed⟩ := h.returned code phase
    obtain ⟨still, same⟩ := last ended
    exact ⟨still, success, printed.trans (by rw [same])⟩

theorem active_of_running {status : CiRunStatus} (running : status = .running) : ciRunStatusIsActive status = true := by
  rw [running]
  rfl

theorem not_over {P : Prop} {status : CiRunStatus} (running : status = .running)
    (ended : ciRunStatusIsActive status = false) : P := by
  rw [active_of_running running] at ended
  cases ended

theorem sound_claim (h : Sound world) (pending : world.record.status = .pending) (started : Nat)
    (fresh : Fresh { world with record := { world.record with status := .running, started_epoch_seconds := started } }) :
    Sound { world with record := { world.record with status := .running, started_epoch_seconds := started } } := by
  have active : ciRunStatusIsActive world.record.status = true := by
    rw [pending]
    rfl
  refine ⟨fresh, h.started, h.one, h.total, not_over rfl, h.small, ?_⟩
  exact phase_kept h.phase (le_refl _) (.refl _ _) fun ended => by
    rw [active] at ended
    cases ended

theorem sound_beat (h : Sound world) (heartbeat : Nat)
    (fresh : Fresh { world with record := { world.record with heartbeat_epoch_seconds := heartbeat } }) :
    Sound { world with record := { world.record with heartbeat_epoch_seconds := heartbeat } } :=
  ⟨fresh, h.started, h.one, h.total, h.ended, h.small,
    phase_kept h.phase (le_refl _) (.refl _ _) fun ended => ⟨ended, rfl⟩⟩

theorem sound_tick (h : Sound world) (now : Nat) (fresh : Fresh { world with now }) : Sound { world with now } :=
  ⟨fresh, h.started, h.one, h.total, h.ended, h.small,
    phase_kept h.phase (le_refl _) (.refl _ _) fun ended => ⟨ended, rfl⟩⟩

theorem sound_stepStarted (h : Sound world) (running : world.record.status = .running)
    (idle : world.logs.length = world.record.steps) (more : world.logs.length < world.total)
    (fresh : Fresh { world with logs := world.logs ++ [[]] }) : Sound { world with logs := world.logs ++ [[]] } := by
  have count : (world.logs ++ [[]]).length = world.logs.length + 1 := by simp
  refine ⟨fresh, ?_, ?_, ?_, not_over running, ?_, ?_⟩
  · change world.record.steps ≤ (world.logs ++ [[]]).length
    omega
  · change (world.logs ++ [[]]).length ≤ world.record.steps + 1
    omega
  · change (world.logs ++ [[]]).length ≤ world.total
    omega
  · intro log inside
    rcases List.mem_append.mp inside with old | new
    · exact h.small log old
    · rw [List.mem_singleton.mp new]
      decide
  · exact phase_kept h.phase (le_refl _) (grows_start idle) (not_over running)

theorem sound_appendLog (h : Sound world) {before : List Bytes} {log bytes : Bytes}
    (running : world.record.status = .running) (logs : world.logs = before ++ [log])
    (busy : world.record.steps = before.length) (small : (log ++ bytes).length < 2 ^ 64)
    (fresh : Fresh { world with logs := before ++ [log ++ bytes] }) :
    Sound { world with logs := before ++ [log ++ bytes] } := by
  have count : (before ++ [log ++ bytes]).length = world.logs.length := by simp [logs]
  have started := h.started
  have one := h.one
  have total := h.total
  refine ⟨fresh, ?_, ?_, ?_, not_over running, ?_, ?_⟩
  · change world.record.steps ≤ (before ++ [log ++ bytes]).length
    omega
  · change (before ++ [log ++ bytes]).length ≤ world.record.steps + 1
    omega
  · change (before ++ [log ++ bytes]).length ≤ world.total
    omega
  · intro other inside
    rcases List.mem_append.mp inside with old | new
    · exact h.small other (logs ▸ List.mem_append_left _ old)
    · rw [List.mem_singleton.mp new]
      exact small
  · exact phase_kept h.phase (le_refl _) (logs ▸ grows_append bytes busy) (not_over running)

theorem sound_stepFinished (h : Sound world) (running : world.record.status = .running)
    (busy : world.logs.length = world.record.steps + 1)
    (fresh : Fresh { world with record := { world.record with steps := world.record.steps + 1 } }) :
    Sound { world with record := { world.record with steps := world.record.steps + 1 } } := by
  refine ⟨fresh, busy.ge, ?_, h.total, not_over running, h.small, ?_⟩
  · change world.logs.length ≤ world.record.steps + 1 + 1
    omega
  · exact phase_kept h.phase (Nat.le_succ _) (.refl _ _) (not_over running)

theorem sound_finish (h : Sound world) (status : CiRunStatus) (active : ciRunStatusIsActive world.record.status = true)
    (idle : world.logs.length = world.record.steps) (all : world.record.steps = world.total)
    (fresh : Fresh { world with record := { world.record with status } }) :
    Sound { world with record := { world.record with status } } := by
  refine ⟨fresh, h.started, h.one, h.total, fun _ => ⟨idle, all⟩, h.small, ?_⟩
  exact phase_kept h.phase (le_refl _) (.refl _ _) fun ended => by
    rw [active] at ended
    cases ended

section Phases
variable {step code : Nat} {offset : UInt64} {may_still_write : Bool}

theorem phase_asking (phase : world.phase = .asking step offset) (p : Printing world step offset) : PhaseSound world := by
  constructor <;> simp only [phase, reduceCtorEq, false_implies, implies_true, Phase.asking.injEq]
  rintro _ _ ⟨rfl, rfl⟩
  exact p

theorem phase_answering (phase : world.phase = .answering step offset may_still_write) (p : Printing world step offset)
    (done : may_still_write = false → step < world.record.steps) : PhaseSound world := by
  constructor <;> simp only [phase, reduceCtorEq, false_implies, implies_true, Phase.answering.injEq]
  rintro _ _ _ ⟨rfl, rfl, rfl⟩
  exact ⟨p, done⟩

theorem phase_advancing (phase : world.phase = .advancing step) (start : world.first ≤ step)
    (recorded : step < world.record.steps) (printed : world.printed = logsBefore world.logs world.first (step + 1)) :
    PhaseSound world := by
  constructor <;> simp only [phase, reduceCtorEq, false_implies, implies_true, Phase.advancing.injEq]
  rintro _ rfl
  exact ⟨start, recorded, printed⟩

theorem phase_closing (phase : world.phase = .closing) (ended : ciRunStatusIsActive world.record.status = false)
    (printed : world.printed = (world.logs.drop world.first).flatten) : PhaseSound world := by
  constructor <;> simp only [phase, reduceCtorEq, false_implies, implies_true, true_implies]
  exact ⟨ended, printed⟩

theorem phase_returned (phase : world.phase = .returned 0) (ended : ciRunStatusIsActive world.record.status = false)
    (printed : world.printed = (world.logs.drop world.first).flatten) : PhaseSound world := by
  constructor <;> simp only [phase, reduceCtorEq, false_implies, implies_true, Phase.returned.injEq]
  rintro _ rfl
  exact ⟨ended, rfl, printed⟩

end Phases

/-- A step of the command leaves the run alone. -/
theorem Sound.move {after : World} (h : Sound world) (total : after.total = world.total) (record : after.record = world.record)
    (now : after.now = world.now) (logs : after.logs = world.logs) (phase : PhaseSound after) : Sound after := by
  obtain ⟨fresh, started, one, bound, ended, small, -⟩ := h
  refine ⟨?_, ?_, ?_, ?_, ?_, ?_, phase⟩
  · rw [Fresh, record, now]
    exact fresh
  · rw [record, logs]
    exact started
  · rw [record, logs]
    exact one
  · rw [logs, total]
    exact bound
  · rw [record, logs, total]
    exact ended
  · rw [logs]
    exact small

theorem logsBefore_self (logs : List Bytes) (step : Nat) : logsBefore logs step step = [] := by
  rw [logsBefore, List.drop_eq_nil_of_le (by rw [List.length_take]; omega), List.flatten_nil]

/-- The command starts with a step that is there or will be. -/
theorem sound_begin (h : Sound world) (phase : world.phase = .begin) (timely : Timely world) : Sound world.begin := by
  have nothing := h.phase.begin phase
  have ready := timely.1 phase
  have printing {step : Nat} (chosen : step < world.total) (known : step ≤ world.record.steps) :
      Printing { world with first := step, phase := .asking step 0 } step 0 := by
    refine ⟨chosen, known, le_refl _, Nat.zero_le _, ?_⟩
    change world.printed = logsBefore world.logs step step ++ (logAt world.logs step).take 0
    rw [nothing, logsBefore_self]
    rfl
  unfold World.begin
  cases active : ciRunStatusIsActive world.record.status with
  | true =>
    rw [active, if_pos rfl] at ready
    refine h.move rfl rfl rfl rfl ?_
    exact phase_asking rfl (printing ready (le_refl _))
  | false =>
    rw [active, if_neg (by decide)] at ready
    rw [if_neg (by simp; omega)]
    have all := (h.ended active).2
    refine h.move rfl rfl rfl rfl ?_
    exact phase_asking rfl (printing (by simp; omega) (by simp))

/-- Once the server sees that a log is not written any more, its step is recorded. -/
theorem sound_judge (h : Sound world) {step : Nat} {offset : UInt64} (phase : world.phase = .asking step offset) :
    Sound (world.judge step offset) := by
  have p := h.phase.asking step offset phase
  refine h.move rfl rfl rfl rfl (phase_answering rfl ⟨p.chosen, p.known, p.start, p.inside, p.printed⟩ ?_)
  intro quiet
  rw [mayStillWrite, display_active h.fresh, Bool.and_eq_false_iff] at quiet
  change step < world.record.steps
  rcases quiet with ended | recorded
  · rw [(h.ended ended).2]
    exact p.chosen
  · exact Nat.lt_of_not_le (of_decide_eq_false recorded)

/-- The chunk of a step's log behind an offset. -/
def chunkAt (logs : List Bytes) (step : Nat) (offset : UInt64) : Bytes :=
  readCiRunLogChunk (logAt logs step) offset.toNat kMaximumControlLogChunkBytes

/-- What a request prints while the step's log is there or may come. -/
theorem answer_eq {step : Nat} {offset : UInt64} {may_still_write : Bool}
    (there : may_still_write = false → step < world.logs.length) :
    world.answer step offset may_still_write =
      world.print step offset
        { offset
          bytes := chunkAt world.logs step offset
          complete := !may_still_write && (chunkAt world.logs step offset).length < kMaximumControlLogChunkBytes } := by
  have answered : answerCiLog may_still_write world.logs[step]? offset =
      some
        { offset
          bytes := chunkAt world.logs step offset
          complete := !may_still_write && (chunkAt world.logs step offset).length < kMaximumControlLogChunkBytes } := by
    rw [answerCiLog, chunkAt, logAt]
    cases log : world.logs[step]? with
    | some log => simp
    | none =>
      have may : may_still_write = true := by
        by_contra quiet
        have := there (Bool.eq_false_of_not_eq_true quiet)
        rw [List.getElem?_eq_none_iff] at log
        omega
      simp [may, readCiRunLogChunk]
  have fetched := fetch_eq
    { offset
      bytes := chunkAt world.logs step offset
      complete := !may_still_write && (chunkAt world.logs step offset).length < kMaximumControlLogChunkBytes }
    (chunk_short _ _ _)
  rw [World.answer, answered]
  simp only [fetched]

/-- A chunk is printed once, and a complete one is the last of its log. -/
theorem sound_answer (h : Sound world) {step : Nat} {offset : UInt64} {may_still_write : Bool}
    (phase : world.phase = .answering step offset may_still_write) : Sound (world.answer step offset may_still_write) := by
  obtain ⟨p, done⟩ := h.phase.answering step offset may_still_write phase
  have there (quiet : may_still_write = false) : step < world.logs.length := (done quiet).trans_le h.started
  obtain ⟨taken, inside⟩ := take_chunk kMaximumControlLogChunkBytes p.inside
  rw [← chunkAt] at taken inside
  have printed : world.printed ++ chunkAt world.logs step offset = logsBefore world.logs world.first step
      ++ (logAt world.logs step).take (offset.toNat + (chunkAt world.logs step offset).length) := by
    rw [p.printed, List.append_assoc, taken]
  rw [answer_eq there, World.print]
  split
  · rename_i complete
    rw [Bool.and_eq_true, Bool.not_eq_true', decide_eq_true_eq] at complete
    obtain ⟨quiet, short⟩ := complete
    refine h.move rfl rfl rfl rfl (phase_advancing rfl p.start (done quiet) ?_)
    change world.printed ++ chunkAt world.logs step offset = logsBefore world.logs world.first (step + 1)
    have whole := chunk_end p.inside short
    rw [printed, chunkAt, whole, List.take_length, logsBefore_succ p.start (there quiet)]
  · have small : (logAt world.logs step).length < 2 ^ 64 := by
      rw [logAt]
      cases log : world.logs[step]? with
      | none => decide
      | some found => exact h.small found (List.mem_of_getElem? log)
    have next : (offset + UInt64.ofNat (chunkAt world.logs step offset).length).toNat
        = offset.toNat + (chunkAt world.logs step offset).length := by
      rw [UInt64.toNat_add, UInt64.toNat_ofNat', Nat.add_mod_mod, Nat.mod_eq_of_lt (inside.trans_lt small)]
    refine h.move rfl rfl rfl rfl (phase_asking rfl ⟨p.chosen, p.known, p.start, ?_, ?_⟩)
    · rw [next]
      exact inside
    · rw [next]
      exact printed

/-- Behind a complete log the command goes on to a step that comes, or the run is over. -/
theorem sound_advance (h : Sound world) {step : Nat} (phase : world.phase = .advancing step) (timely : Timely world) :
    Sound (world.advance step) := by
  obtain ⟨start, recorded, printed⟩ := h.phase.advancing step phase
  rw [World.advance, display_active h.fresh]
  split
  · rename_i last
    obtain ⟨behind, quiet⟩ := last
    have all : step + 1 = world.record.steps := by omega
    have ended : ciRunStatusIsActive world.record.status = false :=
      Bool.eq_false_of_not_eq_true fun active => quiet ⟨active, all⟩
    refine h.move rfl rfl rfl rfl (phase_closing rfl ended ?_)
    change world.printed = (world.logs.drop world.first).flatten
    rw [printed, logsBefore, all, ← (h.ended ended).1, List.take_length]
  · rename_i more
    have coming : step + 1 < world.total := by
      cases active : ciRunStatusIsActive world.record.status with
      | true =>
        have := timely.2 step phase active
        omega
      | false =>
        have := (h.ended active).2
        rw [active] at more
        simp only [Bool.false_eq_true, false_and, not_false_eq_true, and_true, ge_iff_le, not_le] at more
        omega
    refine h.move rfl rfl rfl rfl (phase_asking rfl ⟨coming, recorded, start.trans (Nat.le_succ _), Nat.zero_le _, ?_⟩)
    change world.printed = logsBefore world.logs world.first (step + 1) ++ (logAt world.logs (step + 1)).take 0
    rw [printed, List.take_zero, List.append_nil]

theorem sound_close (h : Sound world) (phase : world.phase = .closing) : Sound { world with phase := .returned 0 } := by
  obtain ⟨ended, printed⟩ := h.phase.closing phase
  exact h.move rfl rfl rfl rfl (phase_returned rfl ended printed)

theorem sound_step {after : World} (h : Sound world) (timely : Timely world) (moves : Step world after)
    (fresh : Fresh after) : Sound after := by
  cases moves with
  | claim pending started => exact sound_claim h pending started fresh
  | beat heartbeat => exact sound_beat h heartbeat fresh
  | tick now => exact sound_tick h now fresh
  | stepStarted running idle more => exact sound_stepStarted h running idle more fresh
  | appendLog before log bytes running logs busy small => exact sound_appendLog h running logs busy small fresh
  | stepFinished running busy => exact sound_stepFinished h running busy fresh
  | finish status active ended idle all => exact sound_finish h status active idle all fresh
  | begin phase => exact sound_begin h phase timely
  | judge step offset phase => exact sound_judge h phase
  | answer step offset may_still_write phase => exact sound_answer h phase
  | advance step phase => exact sound_advance h phase timely
  | close phase => exact sound_close h phase

theorem sound_initial (initial : Initial world) (fresh : Fresh world) : Sound world := by
  refine ⟨fresh, initial.steps, initial.open_step, initial.total, fun ended => ?_, initial.small, ?_⟩
  · have all := initial.ended ended
    have started := initial.steps
    have bound := initial.total
    exact ⟨by omega, all⟩
  · constructor <;> simp only [initial.begin, reduceCtorEq, false_implies, implies_true, true_implies]
    exact initial.printed

/-- A timely command that returns has printed every log of its first step and of
the later ones once, in order, and it succeeds. -/
theorem timely_followed (world : World) (run : TimelyRun world) : Followed world := by
  have sound : Sound world := by
    induction run with
    | start world initial fresh => exact sound_initial initial fresh
    | next world after _ timely moves fresh before => exact sound_step before timely moves fresh
  exact sound.followed

private theorem timely_elsewhere (started : world.phase ≠ .begin) (choosing : ∀ step, world.phase ≠ .advancing step) :
    Timely world :=
  ⟨fun phase => absurd phase started, fun step phase => absurd phase (choosing step)⟩

/-- A run of so many steps. -/
private def sampleRun (total : Nat) (status : CiRunStatus) (steps : Nat) (logs : List Bytes) (phase : Phase)
    (printed : Bytes) : World :=
  { total
    record := { status, started_epoch_seconds := 0, heartbeat_epoch_seconds := 0, steps }
    now := 0
    logs
    phase
    printed }

private theorem sampleRun_initial (total : Nat) : Initial (sampleRun total .running 0 [] .begin []) := by
  constructor <;> simp [sampleRun, ciRunStatusIsActive]

/-- The first of two steps is followed to its end while the run goes on, and the second in two chunks. -/
theorem timely_followed_steps :
    ∃ world, TimelyRun world ∧ world.phase = .returned 0 ∧ world.printed = ascii "abcd" ∧ Followed world := by
  have begun : TimelyRun (sampleRun 2 .running 0 [] (.asking 0 0) []) :=
    .next _ _ (.start _ (sampleRun_initial 2) fun _ => rfl) ⟨fun _ => by decide, nofun⟩ (.begin _ rfl) fun _ => rfl
  have started : TimelyRun (sampleRun 2 .running 0 [[]] (.asking 0 0) []) :=
    .next _ _ begun (timely_elsewhere nofun nofun) (.stepStarted _ rfl rfl (by decide)) fun _ => rfl
  have written : TimelyRun (sampleRun 2 .running 0 [ascii "a"] (.asking 0 0) []) :=
    .next _ _ started (timely_elsewhere nofun nofun) (.appendLog _ [] [] (ascii "a") rfl rfl rfl (by decide))
      fun _ => rfl
  have recorded : TimelyRun (sampleRun 2 .running 1 [ascii "a"] (.asking 0 0) []) :=
    .next _ _ written (timely_elsewhere nofun nofun) (.stepFinished _ rfl rfl) fun _ => rfl
  have judged : TimelyRun (sampleRun 2 .running 1 [ascii "a"] (.answering 0 0 false) []) :=
    .next _ _ recorded (timely_elsewhere nofun nofun) (.judge _ 0 0 rfl) fun _ => rfl
  have first : (sampleRun 2 .running 1 [ascii "a"] (.answering 0 0 false) []).answer 0 0 false
      = sampleRun 2 .running 1 [ascii "a"] (.advancing 0) (ascii "a") := answer_eq fun _ => by decide
  have printed : TimelyRun (sampleRun 2 .running 1 [ascii "a"] (.advancing 0) (ascii "a")) :=
    .next _ _ judged (timely_elsewhere nofun nofun) (first ▸ .answer _ 0 0 false rfl) fun _ => rfl
  have chosen : TimelyRun (sampleRun 2 .running 1 [ascii "a"] (.asking 1 0) (ascii "a")) :=
    .next _ _ printed ⟨nofun, fun _ _ _ => by decide⟩ (.advance _ 0 rfl) fun _ => rfl
  have again : TimelyRun (sampleRun 2 .running 1 [ascii "a", []] (.asking 1 0) (ascii "a")) :=
    .next _ _ chosen (timely_elsewhere nofun nofun) (.stepStarted _ rfl rfl (by decide)) fun _ => rfl
  have half : TimelyRun (sampleRun 2 .running 1 [ascii "a", ascii "bc"] (.asking 1 0) (ascii "a")) :=
    .next _ _ again (timely_elsewhere nofun nofun)
      (.appendLog _ [ascii "a"] [] (ascii "bc") rfl rfl rfl (by decide)) fun _ => rfl
  have watched : TimelyRun (sampleRun 2 .running 1 [ascii "a", ascii "bc"] (.answering 1 0 true) (ascii "a")) :=
    .next _ _ half (timely_elsewhere nofun nofun) (.judge _ 1 0 rfl) fun _ => rfl
  have second : (sampleRun 2 .running 1 [ascii "a", ascii "bc"] (.answering 1 0 true) (ascii "a")).answer 1 0 true
      = sampleRun 2 .running 1 [ascii "a", ascii "bc"] (.asking 1 2) (ascii "abc") := answer_eq fun _ => by decide
  have part : TimelyRun (sampleRun 2 .running 1 [ascii "a", ascii "bc"] (.asking 1 2) (ascii "abc")) :=
    .next _ _ watched (timely_elsewhere nofun nofun) (second ▸ .answer _ 1 0 true rfl) fun _ => rfl
  have whole : TimelyRun (sampleRun 2 .running 1 [ascii "a", ascii "bcd"] (.asking 1 2) (ascii "abc")) :=
    .next _ _ part (timely_elsewhere nofun nofun)
      (.appendLog _ [ascii "a"] (ascii "bc") (ascii "d") rfl rfl rfl (by decide)) fun _ => rfl
  have closed : TimelyRun (sampleRun 2 .running 2 [ascii "a", ascii "bcd"] (.asking 1 2) (ascii "abc")) :=
    .next _ _ whole (timely_elsewhere nofun nofun) (.stepFinished _ rfl rfl) fun _ => rfl
  have finished : TimelyRun (sampleRun 2 .success 2 [ascii "a", ascii "bcd"] (.asking 1 2) (ascii "abc")) :=
    .next _ _ closed (timely_elsewhere nofun nofun) (.finish _ .success rfl rfl rfl rfl) nofun
  have ended : TimelyRun (sampleRun 2 .success 2 [ascii "a", ascii "bcd"] (.answering 1 2 false) (ascii "abc")) :=
    .next _ _ finished (timely_elsewhere nofun nofun) (.judge _ 1 2 rfl) nofun
  have third : (sampleRun 2 .success 2 [ascii "a", ascii "bcd"] (.answering 1 2 false) (ascii "abc")).answer 1 2 false
      = sampleRun 2 .success 2 [ascii "a", ascii "bcd"] (.advancing 1) (ascii "abcd") := answer_eq fun _ => by decide
  have last : TimelyRun (sampleRun 2 .success 2 [ascii "a", ascii "bcd"] (.advancing 1) (ascii "abcd")) :=
    .next _ _ ended (timely_elsewhere nofun nofun) (third ▸ .answer _ 1 2 false rfl) nofun
  have read : TimelyRun (sampleRun 2 .success 2 [ascii "a", ascii "bcd"] .closing (ascii "abcd")) :=
    .next _ _ last ⟨nofun, nofun⟩ (.advance _ 1 rfl) nofun
  have returned : TimelyRun (sampleRun 2 .success 2 [ascii "a", ascii "bcd"] (.returned 0) (ascii "abcd")) :=
    .next _ _ read (timely_elsewhere nofun nofun) (.close _ rfl) nofun
  exact ⟨_, returned, rfl, rfl, timely_followed _ returned⟩

/-- The last step's log is read before the run is finished: the command waits for
a step that does not come and fails. -/
theorem follow_awaits_no_step : ¬ ∀ world, Run world → Followed world := by
  intro followed
  have begun : Run (sampleRun 1 .running 0 [] (.asking 0 0) []) :=
    .next _ _ (.start _ (sampleRun_initial 1) fun _ => rfl) (.begin _ rfl) fun _ => rfl
  have started : Run (sampleRun 1 .running 0 [[]] (.asking 0 0) []) :=
    .next _ _ begun (.stepStarted _ rfl rfl (by decide)) fun _ => rfl
  have recorded : Run (sampleRun 1 .running 1 [[]] (.asking 0 0) []) :=
    .next _ _ started (.stepFinished _ rfl rfl) fun _ => rfl
  have judged : Run (sampleRun 1 .running 1 [[]] (.answering 0 0 false) []) :=
    .next _ _ recorded (.judge _ 0 0 rfl) fun _ => rfl
  have answered : (sampleRun 1 .running 1 [[]] (.answering 0 0 false) []).answer 0 0 false
      = sampleRun 1 .running 1 [[]] (.advancing 0) [] := answer_eq fun _ => by decide
  have printed : Run (sampleRun 1 .running 1 [[]] (.advancing 0) []) :=
    .next _ _ judged (answered ▸ .answer _ 0 0 false rfl) fun _ => rfl
  have chosen : Run (sampleRun 1 .running 1 [[]] (.asking 1 0) []) :=
    .next _ _ printed (.advance _ 0 rfl) fun _ => rfl
  have finished : Run (sampleRun 1 .success 1 [[]] (.asking 1 0) []) :=
    .next _ _ chosen (.finish _ .success rfl rfl rfl rfl) nofun
  have missing : Run (sampleRun 1 .success 1 [[]] (.answering 1 0 false) []) :=
    .next _ _ finished (.judge _ 1 0 rfl) nofun
  have failed : Run (sampleRun 1 .success 1 [[]] (.returned 1) []) :=
    .next _ _ missing (.answer _ 1 0 false rfl) nofun
  exact absurd (followed _ failed 1 rfl).1 (by decide)

end CkGit.LogFollow
