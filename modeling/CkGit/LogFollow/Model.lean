import CkGit.LogStream.Model
import CkGit.Responses.Jobs

/-!
Following a run: `ckgit ci log RUN --follow` (fetchCiLogChunk and ciLogCommand
in src/client/ci.inc) asks the server for one chunk after another (answerCiLog
in src/server/main.cpp) while the runner goes through the steps.
-/
namespace CkGit.LogFollow
open CkGit.Base CkGit.Ci CkGit.LogStream CkGit.Responses

def kCiRunStaleSeconds : Nat := 90

/-- The fields of a run record that are read here; `steps` results are recorded. -/
structure RunRecord where
  status : CiRunStatus
  started_epoch_seconds : Nat
  heartbeat_epoch_seconds : Nat
  steps : Nat
deriving Repr, DecidableEq

/-- Whether ciRunDisplayAt shows the run as active. -/
def ciRunDisplayActive (run : RunRecord) (now : Nat) : Bool :=
  let beat := if run.heartbeat_epoch_seconds ≠ 0 then run.heartbeat_epoch_seconds else run.started_epoch_seconds
  match run.status with
  | .running => !(beat ≠ 0 && now > beat + kCiRunStaleSeconds)
  | .pending => true
  | _ => false

/-- What answerCiLog found in the record before it reads the log. -/
def mayStillWrite (run : RunRecord) (now step : Nat) : Bool := ciRunDisplayActive run now && step ≥ run.steps

/-- The rest of answerCiLog: none is the error `nolog`. -/
def answerCiLog (may_still_write : Bool) (log : Option Bytes) (offset : UInt64) : Option CiLogChunk :=
  let bytes := log.map fun log => readCiRunLogChunk log offset.toNat kMaximumControlLogChunkBytes
  if bytes.isNone && !may_still_write then none
  else
    let bytes := bytes.getD []
    some { offset, bytes, complete := !may_still_write && bytes.length < kMaximumControlLogChunkBytes }

/-- The chunk as the client reads it from the response. -/
def fetchCiLogChunk (answer : CiLogChunk) (offset : UInt64) : Option CiLogChunk := do
  parseCiLogControlResponse (← formatCiLogControlResponse answer) offset

/-- Where ciLogCommand stands: before its first read of the run, before the
server reads the record for a chunk, before it reads the log, before the run is
read behind a complete log, before the last read, or returned. -/
inductive Phase where
  | begin
  | asking (step : Nat) (offset : UInt64)
  | answering (step : Nat) (offset : UInt64) (may_still_write : Bool)
  | advancing (step : Nat)
  | closing
  | returned (code : Nat)
deriving Repr, DecidableEq

/-- The run, its logs and the command. `total` is ghost: the steps the run will
have; `first` too: the step the command started with. -/
structure World where
  total : Nat
  record : RunRecord
  now : Nat
  logs : List Bytes := []
  phase : Phase := .begin
  first : Nat := 0
  printed : Bytes := []

/-- The first read of the run: the running step, or the last one of a finished run. -/
def World.begin (world : World) : World :=
  let active := ciRunStatusIsActive world.record.status
  if !active && world.record.steps = 0 then { world with phase := .returned 1 }
  else
    let step := world.record.steps - (if active then 0 else 1)
    { world with first := step, phase := .asking step 0 }

def World.judge (world : World) (step : Nat) (offset : UInt64) : World :=
  { world with phase := .answering step offset (mayStillWrite world.record world.now step) }

/-- A chunk is printed, and asked for again until it is complete. -/
def World.print (world : World) (step : Nat) (offset : UInt64) (chunk : CiLogChunk) : World :=
  { world with
    printed := world.printed ++ chunk.bytes
    phase := if chunk.complete then .advancing step
      else .asking step (offset + UInt64.ofNat chunk.bytes.length) }

def World.answer (world : World) (step : Nat) (offset : UInt64) (may_still_write : Bool) : World :=
  match answerCiLog may_still_write world.logs[step]? offset with
  | none => { world with phase := .returned 1 }
  | some answer =>
    match fetchCiLogChunk answer offset with
    | none => { world with phase := .returned 1 }
    | some chunk => world.print step offset chunk

/-- The next step is followed when the run has one or is about to start it. -/
def World.advance (world : World) (step : Nat) : World :=
  let live := ciRunDisplayActive world.record world.now
  if step + 1 ≥ world.record.steps ∧ ¬ (live ∧ step + 1 = world.record.steps) then { world with phase := .closing }
  else { world with phase := .asking (step + 1) 0 }

/-- The heartbeat of a running run stays fresh. -/
def Fresh (world : World) : Prop :=
  world.record.status = .running → ciRunDisplayActive world.record world.now = true

/-- One step of the runner, of the clock or of a request: steps run in order,
and a step's log is complete before its result is recorded. -/
inductive Step : World → World → Prop
  | claim (world : World) (pending : world.record.status = .pending) (fresh : Nat) :
      Step world { world with record := { world.record with status := .running, started_epoch_seconds := fresh } }
  | beat (world : World) (heartbeat : Nat) :
      Step world { world with record := { world.record with heartbeat_epoch_seconds := heartbeat } }
  | tick (world : World) (now : Nat) : Step world { world with now }
  | stepStarted (world : World) (running : world.record.status = .running)
      (idle : world.logs.length = world.record.steps) (more : world.logs.length < world.total) :
      Step world { world with logs := world.logs ++ [[]] }
  | appendLog (world : World) (before : List Bytes) (log bytes : Bytes) (running : world.record.status = .running)
      (logs : world.logs = before ++ [log]) (busy : world.record.steps = before.length)
      (small : (log ++ bytes).length < 2 ^ 64) : Step world { world with logs := before ++ [log ++ bytes] }
  | stepFinished (world : World) (running : world.record.status = .running)
      (busy : world.logs.length = world.record.steps + 1) :
      Step world { world with record := { world.record with steps := world.record.steps + 1 } }
  -- The runner's own report lists every step it started; no reaper ends a run whose heartbeat is fresh.
  | finish (world : World) (status : CiRunStatus) (active : ciRunStatusIsActive world.record.status = true)
      (ended : ciRunStatusIsActive status = false) (idle : world.logs.length = world.record.steps)
      (all : world.record.steps = world.total) : Step world { world with record := { world.record with status } }
  | begin (world : World) (phase : world.phase = .begin) : Step world world.begin
  | judge (world : World) (step : Nat) (offset : UInt64) (phase : world.phase = .asking step offset) :
      Step world (world.judge step offset)
  | answer (world : World) (step : Nat) (offset : UInt64) (may_still_write : Bool)
      (phase : world.phase = .answering step offset may_still_write) :
      Step world (world.answer step offset may_still_write)
  | advance (world : World) (step : Nat) (phase : world.phase = .advancing step) : Step world (world.advance step)
  | close (world : World) (phase : world.phase = .closing) : Step world { world with phase := .returned 0 }

/-- A run at any point where the command may be called. -/
structure Initial (world : World) : Prop where
  begin : world.phase = .begin
  printed : world.printed = []
  steps : world.record.steps ≤ world.logs.length
  open_step : world.logs.length ≤ world.record.steps + 1
  total : world.logs.length ≤ world.total
  running : world.record.status = .pending → world.logs = []
  ended : ciRunStatusIsActive world.record.status = false → world.record.steps = world.total
  small : ∀ log ∈ world.logs, log.length < 2 ^ 64

/-- The command has printed the logs from the first step on, and succeeds. -/
def Followed (world : World) : Prop :=
  ∀ code, world.phase = .returned code → code = 0 ∧ world.printed = (world.logs.drop world.first).flatten

/-- When the run is read to choose a step, an active run has a step to come that
is not recorded, and a finished one has run a step. -/
def Timely (world : World) : Prop :=
  (world.phase = .begin → if ciRunStatusIsActive world.record.status then world.record.steps < world.total
    else 0 < world.record.steps) ∧
  (∀ step, world.phase = .advancing step → ciRunStatusIsActive world.record.status = true →
    world.record.steps < world.total)

inductive Run : World → Prop
  | start (world : World) (initial : Initial world) (fresh : Fresh world) : Run world
  | next (world after : World) (before : Run world) (moves : Step world after) (fresh : Fresh after) : Run after

inductive TimelyRun : World → Prop
  | start (world : World) (initial : Initial world) (fresh : Fresh world) : TimelyRun world
  | next (world after : World) (before : TimelyRun world) (timely : Timely world) (moves : Step world after)
      (fresh : Fresh after) : TimelyRun after

end CkGit.LogFollow
