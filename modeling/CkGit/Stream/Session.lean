import CkGit.Ci.FinishReport

/-!
StreamSession of src/common/ci_gateway.cpp: the frames of a byte stream and what
each does to the run record, the step logs and the replies. The clock, the lease
and the refreshes that may fail are questions to an environment, which answers
them in the order they are asked. Writes to the runner, and those to the state
directory but for the record's own limits, are taken to succeed.
-/
namespace CkGit.Stream
open CkGit.Base CkGit.Ci

def kMaximumHeaderBytes : Nat := 4096

/-- A log frame carries at most this many bytes. -/
def kMaximumCiLogFrameBytes : Nat := 64 * 1024

/-- The answers a session gets, by the number of questions before. -/
structure Environment where
  now : Nat → UInt64
  renewed : Nat → Bool
  refreshed : Nat → Except Bytes Unit
  max_log : Nat
  job : CiJobRequest

structure Session where
  record : CiRunRecord
  /-- run.ini as this session last wrote it. -/
  stored : Option CiRunRecord
  logs : Nat → Option Bytes
  replies : List Bytes
  last_write : UInt64
  last_parent_refresh : UInt64
  last_seen_note : UInt64
  questions : Nat

/-- A session's step: it may throw, and keeps what it did before. -/
abbrev StreamM := ExceptT Bytes (StateM Session)

def StreamM.perform {α : Type} (action : StreamM α) (session : Session) : Except Bytes α × Session :=
  StateT.run (ExceptT.run action) session

/-- StreamSession::parse. -/
def parse (token : Bytes) : Except Bytes Nat :=
  match parseDecimal (2 ^ 64 - 1) token with
  | some value => .ok value
  | none => .error (ascii "malformed stream number")

inductive StreamFrame where
  | log (index offset : Nat) (bytes : Bytes)
  | line (tokens : List Bytes)
  deriving DecidableEq, Repr

/-- What the front of the buffer is. -/
inductive Next where
  | wait
  | fail (error : Bytes)
  | frame (frame : StreamFrame) (rest : Bytes)
  deriving DecidableEq, Repr

/-- A log header's frame, once its payload is there. -/
def readLog (index offset : Bytes) (length : Nat) (after : Bytes) : Next :=
  if after.length < length then .wait
  else match parse index with
  | .error error => .fail error
  | .ok index =>
    match parse offset with
    | .error error => .fail error
    | .ok offset => .frame (.log index offset (after.take length)) (after.drop length)

def readHeader (header after : Bytes) : Next :=
  match header.splitOn space with
  | kind :: tokens =>
    if kind = ascii "log" then
      match tokens with
      | [index, offset, length] =>
        match parse length with
        | .error error => .fail error
        | .ok length =>
          if length > kMaximumCiLogFrameBytes then .fail (ascii "a log frame is too large")
          else readLog index offset length after
      | _ => .fail (ascii "malformed log frame")
    else .frame (.line (kind :: tokens)) after
  | [] => .wait

def tooLong : Bytes := ascii "a stream frame header is too long"

def readFrame (buffer : Bytes) : Next :=
  if newline ∈ buffer then
    readHeader (buffer.takeWhile (· != newline)) ((buffer.dropWhile (· != newline)).drop 1)
  else if buffer.length > kMaximumHeaderBytes then .fail tooLong
  else .wait

variable (environment : Environment)

def nowEpoch : StreamM UInt64 := do
  let session ← get
  set { session with questions := session.questions + 1 }
  return environment.now session.questions

def refreshed : StreamM Unit := do
  let session ← get
  set { session with questions := session.questions + 1 }
  match environment.refreshed session.questions with
  | .ok _ => return ()
  | .error error => throw error

def reply (text : Bytes) : StreamM Unit :=
  modify fun session => { session with replies := session.replies ++ [text] }

def changeRecord (change : CiRunRecord → CiRunRecord) : StreamM Unit :=
  modify fun session => { session with record := change session.record }

def orThrow {α : Type} (value : Except Bytes α) : StreamM α :=
  match value with
  | .ok a => return a
  | .error error => throw error

def storeRecord : StreamM Unit := do
  let session ← get
  match runRecordText session.record with
  | .ok _ => set { session with stored := some session.record }
  | .error error => throw (ascii error)

def write (force : Bool) : StreamM Unit := do
  let now ← nowEpoch environment
  let session ← get
  if !force && now - session.last_write < 3 then return ()
  else do
    modify fun session => { session with last_write := now }
    changeRecord fun record => { record with heartbeat_epoch_seconds := now }
    storeRecord
    if !environment.job.parent_run_id.isEmpty
        && (session.last_parent_refresh == 0 || 30 ≤ now - session.last_parent_refresh) then do
      refreshed environment
      modify fun session => { session with last_parent_refresh := now }
    else return ()

/-- The log with what a frame adds to it, up to the cap. -/
def grown (cap : Nat) (log : Option Bytes) (offset : Nat) (bytes : Bytes) : Option Bytes :=
  let held := log.getD []
  if held.length - offset < bytes.length ∧ held.length < cap then
    some (held ++ (bytes.drop (held.length - offset)).take (cap - held.length))
  else log

/-- The session alone appends to the logs of its run. -/
def appendLog (index offset : Nat) (bytes : Bytes) : StreamM Unit := do
  let session ← get
  if index > session.record.steps.length ∨ index > kMaximumCiSteps then
    throw (ascii "a log for an unknown step")
  else
    let size := ((session.logs index).getD []).length
    if offset > size then reply (ascii "held " ++ decimal index ++ space :: decimal size)
    else do
      let log := grown environment.max_log (session.logs index) offset bytes
      set { session with logs := Function.update session.logs index log }
      reply (ascii "ack " ++ decimal index ++ space :: decimal (max (log.getD []).length (offset + bytes.length)))

def started (time : Bytes) : StreamM Unit := do
  changeRecord fun record => { record with status := .running }
  let started ← orThrow (parse time)
  let time ← if started ≠ 0 then pure (UInt64.ofNat started) else nowEpoch environment
  changeRecord fun record =>
    { record with started_epoch_seconds := time, finished_epoch_seconds := 0 }
  write environment true

def execution (report : Bytes) : StreamM Unit := do
  if report = ascii "-" then changeRecord fun record => { record with execution := none }
  else do
    let parsed ← orThrow ((parseCiExecutionReport report).mapError ascii)
    changeRecord fun record => { record with execution := some parsed }
  write environment true

def stepStart (index : Bytes) : StreamM Unit := do
  let index ← orThrow (parse index)
  let session ← get
  if index = session.record.steps.length then do
    set { session with
      logs := Function.update session.logs index (some ((session.logs index).getD [])) }
    changeRecord fun record => { record with status := .running }
    write environment true
  else return ()

/-- The exit code's cast to int drops what does not fit. -/
def parseExit (text : Bytes) : Except Bytes Int32 :=
  match text with
  | first :: rest =>
    if first = '-'.toUInt8 then (parse rest).map fun magnitude => -Int32.ofNat magnitude
    else (parse text).map Int32.ofNat
  | [] => (parse text).map Int32.ofNat

def stepEnd (index exit_text timed_out truncated name : Bytes) : StreamM Unit := do
  let index ← orThrow (parse index)
  let session ← get
  if index = session.record.steps.length ∧ index < kMaximumCiSteps then do
    let exit_code ← orThrow (parseExit exit_text)
    match fromHexOrDash name kMaximumHexTextBytes with
    | none => throw (ascii "malformed step name")
    | some name => do
      let step : CiStepResult :=
        { name, exit_code, timed_out := timed_out == ascii "1",
          output_truncated := truncated == ascii "1" }
      changeRecord fun record => { record with steps := record.steps ++ [step] }
      write environment true
  else return ()

def heartbeat : StreamM Bool := do
  let session ← get
  set { session with questions := session.questions + 1 }
  if !environment.renewed session.questions then do
    reply (ascii "lease-lost")
    return false
  else do
    write environment false
    let now ← nowEpoch environment
    let session ← get
    if 60 ≤ now - session.last_seen_note then do
      set { session with last_seen_note := now }
      refreshed environment
      return true
    else return true

def progress (detail : Bytes) : StreamM Unit := do
  match fromHexOrDash detail kMaximumCiDetailBytes with
  | none => throw (ascii "malformed progress")
  | some detail => do
    changeRecord fun record => { record with detail }
    write environment true

/-- StreamSession::frame: false when the lease is lost. -/
def frame (tokens : List Bytes) : StreamM Bool := do
  let kind := tokens.headD []
  let unknown : StreamM Bool := throw (ascii "unknown stream frame '" ++ kind ++ ascii "'")
  match tokens.drop 1 with
  | [] => if kind = ascii "heartbeat" then heartbeat environment else unknown
  | [value] =>
    if kind = ascii "started" then do started environment value; return true
    else if kind = ascii "execution" then do execution environment value; return true
    else if kind = ascii "progress" then do progress environment value; return true
    else unknown
  | [index, _] => if kind = ascii "step-start" then do stepStart environment index; return true else unknown
  | [index, exit_text, timed_out, truncated, name] =>
    if kind = ascii "step-end" then do
      stepEnd environment index exit_text timed_out truncated name
      return true
    else unknown
  | _ => unknown

def handle (next : StreamFrame) : StreamM Bool :=
  match next with
  | .log index offset bytes => do appendLog environment index offset bytes; return true
  | .line tokens => frame environment tokens

/-- The session goes on, has ended, or is refused with a reason. -/
inductive Verdict where
  | accepted
  | closed
  | refused (error : Bytes)
  deriving DecidableEq, Repr

structure Consumed where
  session : Session
  buffer : Bytes
  verdict : Verdict

/-- StreamSession::consume. A frame takes at least one byte, so as many rounds as the buffer
has bytes, and one more, are enough. -/
def consumeRounds : Nat → Bytes → Session → Consumed
  | 0, buffer, session => { session, buffer, verdict := .accepted }
  | rounds + 1, buffer, session =>
    match readFrame buffer with
    | .wait => { session, buffer, verdict := .accepted }
    | .fail error => { session, buffer, verdict := .refused error }
    | .frame next rest =>
      match (handle environment next).perform session with
      | (.ok true, session) => consumeRounds rounds rest session
      | (.ok false, session) => { session, buffer := rest, verdict := .closed }
      | (.error error, session) => { session, buffer := rest, verdict := .refused error }

def consume (buffer : Bytes) (session : Session) : Consumed :=
  consumeRounds environment (buffer.length + 1) buffer session

/-- The reads of stream(): what is left of the buffer meets the next bytes. -/
def reads (buffer : Bytes) (session : Session) : List Bytes → Session × Verdict
  | [] => (session, .accepted)
  | chunk :: chunks =>
    let consumed := consume environment (buffer ++ chunk) session
    match consumed.verdict with
    | .accepted => reads consumed.buffer consumed.session chunks
    | verdict => (consumed.session, verdict)

end CkGit.Stream
