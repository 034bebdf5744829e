import CkGit.Ci.Records

/-!
The live log of a CI step: streamCiLog (src/server/main.cpp) sends the lines of
a step's log as server-sent events while the log grows, and a client that lost
its connection comes back with the id of the last event it received.
-/
namespace CkGit.LogStream
open CkGit.Base CkGit.Ci

/-- One event: the position behind its line and the line. -/
structure Event where
  id : Nat
  data : Bytes
deriving Repr, DecidableEq

def clean (line : Bytes) : Bytes := line.filter fun c => c ≠ carriage && c ≠ newline

def kChunkBytes : Nat := 256 * 1024

/-- readCiRunLogChunk of a log that exists: what is behind the offset, at most the cap. -/
def readCiRunLogChunk (log : Bytes) (offset cap : Nat) : Bytes :=
  if offset ≥ log.length then [] else (log.drop offset).take (min (log.length - offset) cap)

/-- The complete lines of what is pending as events, where the next one starts,
and the rest; `line` is the part of a line read so far. -/
def drainLines (emitted : Nat) (line pending : Bytes) : List Event × Nat × Bytes :=
  match pending with
  | [] => ([], emitted, line)
  | c :: rest =>
    if c = newline then
      let next := emitted + line.length + 1
      let (events, position, left) := drainLines next [] rest
      ({ id := next, data := clean line } :: events, position, left)
    else drainLines emitted (line ++ [c]) rest

/-- What the status check reads of the run's record: `steps` results are recorded. -/
structure RunRecord where
  status : CiRunStatus
  attempt : Nat
  steps : Nat
deriving Repr, DecidableEq

inductive Message where
  | event (event : Event)
  | done
deriving Repr, DecidableEq

/-- Where streamCiLog stands: before a poll, before the status check, in the
final drain with its guard and batch, or at its end. -/
inductive Phase where
  | tailing
  | checking
  | draining (guard : Nat) (batch : List Event)
  | ended
deriving Repr, DecidableEq

/-- The local variables of streamCiLog and what is sent but not received.
`afterResult` is ghost: the last check saw the step's result. -/
structure Stream where
  offset : Nat
  emitted : Nat
  pending : Bytes := []
  sinceStatus : Nat := 0
  sawRunning : Bool := false
  attempt : Nat := 0
  phase : Phase := .tailing
  flight : List Message := []
  afterResult : Bool := false
deriving Repr, DecidableEq

/-- A stream from the offset of a Last-Event-ID header. -/
def startOffset (last_event_id : Bytes) : Nat :=
  if last_event_id = [] then 0 else (parseDecimal (2 ^ 64 - 1) last_event_id).getD 0

def Stream.start (start_offset : Nat) : Stream := { offset := start_offset, emitted := start_offset }

def Stream.pull (stream : Stream) (log : Bytes) : Stream :=
  let chunk := readCiRunLogChunk log stream.offset kChunkBytes
  { stream with offset := stream.offset + chunk.length, pending := stream.pending ++ chunk }

/-- One round of the loop up to the status check. -/
def Stream.poll (stream : Stream) (log : Bytes) : Stream :=
  let stream := stream.pull log
  let (events, emitted, pending) := drainLines stream.emitted [] stream.pending
  let sent := { stream with emitted, pending, flight := stream.flight ++ events.map Message.event }
  if stream.sinceStatus + 1 ≥ 4 then { sent with sinceStatus := 0, phase := .checking }
  else { sent with sinceStatus := stream.sinceStatus + 1 }

/-- The status check: the stream goes on while the step is the running one. -/
def Stream.check (stream : Stream) (step : Nat) (record : RunRecord) : Stream :=
  let sawRunning := stream.sawRunning || record.status = .running
  let attempt := if stream.attempt = 0 then record.attempt else stream.attempt
  let requeued := (sawRunning && record.status = .pending) || record.attempt ≠ attempt
  let active := !requeued && ciRunStatusIsActive record.status && step = record.steps
  { stream with
    sawRunning, attempt
    phase := if active then .tailing else .draining 0 []
    afterResult := step < record.steps }

/-- The rest that has no newline as the last event. -/
def Stream.rest (stream : Stream) : List Event :=
  if stream.pending = [] then []
  else [{ id := stream.emitted + stream.pending.length, data := clean stream.pending }]

/-- The end of the final drain. -/
def Stream.finish (stream : Stream) (batch : List Event) : Stream :=
  { stream with
    emitted := stream.emitted + stream.pending.length
    pending := []
    phase := .ended
    flight := stream.flight ++ (batch ++ stream.rest).map Message.event ++ [.done] }

/-- One round of the final drain, or its end. -/
def Stream.drain (stream : Stream) (log : Bytes) (guard : Nat) (batch : List Event) : Stream :=
  if guard < 256 ∧ readCiRunLogChunk log stream.offset kChunkBytes ≠ [] then
    let stream := stream.pull log
    let (events, emitted, pending) := drainLines stream.emitted [] stream.pending
    { stream with emitted, pending, phase := .draining (guard + 1) (batch ++ events) }
  else stream.finish batch

/-- `closed` is the end of the log: nothing more is appended. `finished` is
ghost: the client was told that it is done by a stream that saw the result. -/
structure World where
  log : Bytes := []
  closed : Bool := false
  record : RunRecord
  stream : Option Stream := none
  received : List Event := []
  finished : Bool := false

/-- The id that a client comes back with. -/
def lastEventId (received : List Event) : Bytes := (received.getLast?.map fun event => decimal event.id).getD []

/-- What a client does with a message. -/
def World.take (world : World) (stream : Stream) (message : Message) (rest : List Message) : World :=
  match message with
  | .event event =>
    { world with received := world.received ++ [event], stream := some { stream with flight := rest } }
  | .done =>
    { world with finished := world.finished || stream.afterResult, stream := some { stream with flight := rest } }

/-- One step of the runner, of the server's stream or of the client. The whole
log of a step is written before its result is recorded. -/
inductive Step (step : Nat) : World → World → Prop
  | grow (world : World) (bytes : Bytes) (still : world.closed = false)
      (small : (world.log ++ bytes).length < 2 ^ 64) : Step step world { world with log := world.log ++ bytes }
  | close (world : World) : Step step world { world with closed := true }
  | record (world : World) (record : RunRecord) (attempt : record.attempt = world.record.attempt)
      (steps : world.record.steps ≤ record.steps) (kept : ¬ (world.record.status = .running ∧ record.status = .pending))
      (written : step < record.steps → world.closed = true) : Step step world { world with record }
  | connect (world : World) :
      Step step world { world with stream := some (.start (startOffset (lastEventId world.received))) }
  | poll (world : World) (stream : Stream) (here : world.stream = some stream) (phase : stream.phase = .tailing) :
      Step step world { world with stream := some (stream.poll world.log) }
  | check (world : World) (stream : Stream) (here : world.stream = some stream) (phase : stream.phase = .checking) :
      Step step world { world with stream := some (stream.check step world.record) }
  | drain (world : World) (stream : Stream) (guard : Nat) (batch : List Event) (here : world.stream = some stream)
      (phase : stream.phase = .draining guard batch) :
      Step step world { world with stream := some (stream.drain world.log guard batch) }
  | receive (world : World) (stream : Stream) (message : Message) (rest : List Message)
      (here : world.stream = some stream) (flight : stream.flight = message :: rest) :
      Step step world (world.take stream message rest)
  | drop (world : World) : Step step world { world with stream := none }

/-- Before the step has a result and before any stream. -/
structure Initial (step : Nat) (world : World) : Prop where
  log : world.log = []
  record : world.record.steps ≤ step
  stream : world.stream = none
  received : world.received = []
  finished : world.finished = false

/-- The lines of a log, the last one also without a newline. -/
def logLines (log : Bytes) : List Bytes :=
  match log with
  | [] => []
  | c :: rest =>
    if c = newline then [] :: logLines rest
    else match logLines rest with
      | [] => [[c]]
      | line :: more => (c :: line) :: more

def withoutReturns (line : Bytes) : Bytes := line.filter (· ≠ carriage)

/-- The client holds the first lines of the log, all of them once it was told
that the step is done. -/
structure Delivered (world : World) : Prop where
  first : world.received.map (·.data) <+: (logLines world.log).map withoutReturns
  whole : world.finished = true → world.received.map (·.data) = (logLines world.log).map withoutReturns

/-- A stream that is about to end has read the log to its end, and the log
takes no more; or no result is recorded and what it read ends with a newline. -/
def EndsClean (world : World) : Prop :=
  ∀ stream guard batch, world.stream = some stream → stream.phase = .draining guard batch →
    256 ≤ guard ∨ world.log.length ≤ stream.offset →
    (stream.pending ≠ [] → world.closed = true ∧ stream.offset = world.log.length) ∧
    (stream.afterResult = true → stream.offset = world.log.length)

/-- A run of the log and its streams. -/
inductive Run (step : Nat) : World → Prop
  | start (world : World) (initial : Initial step world) : Run step world
  | next (world after : World) (before : Run step world) (moves : Step step world after) : Run step after

/-- A run in which every stream that ends does so cleanly. -/
inductive CleanRun (step : Nat) : World → Prop
  | start (world : World) (initial : Initial step world) : CleanRun step world
  | next (world after : World) (before : CleanRun step world) (clean : EndsClean world)
      (moves : Step step world after) : CleanRun step after

end CkGit.LogStream
