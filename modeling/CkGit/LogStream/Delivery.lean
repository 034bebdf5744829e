import CkGit.LogStream.Lines

/-!
A client holds the first lines of the log at every moment of a run whose
streams end cleanly.
-/
namespace CkGit.LogStream
open CkGit.Base CkGit.Ci

/-- The first complete lines, or the whole of a log that is closed. -/
def Held (log : Bytes) (closed : Bool) (received : List Event) : Prop :=
  received <+: lineEvents log ∨ (closed = true ∧ received = allEvents log)

variable {log : Bytes} {closed : Bool} {received sent : List Event}

theorem Held.first (h : Held log closed received) : received <+: allEvents log := by
  rcases h with part | ⟨-, rfl⟩
  · exact part.trans (List.prefix_append _ _)
  · exact List.prefix_rfl

/-- Of what is sent a client may hold any first part. -/
theorem Held.part (h : Held log closed sent) (part : received <+: sent) : Held log closed received := by
  rcases h with lines | ⟨shut, rfl⟩
  · exact .inl (part.trans lines)
  · by_cases short : received.length ≤ (lineEvents log).length
    · exact .inl (List.prefix_of_prefix_length_le part (List.prefix_append _ _) short)
    · refine .inr ⟨shut, part.eq_of_length ?_⟩
      have bound := part.length_le
      have one : (lastEvent log).length ≤ 1 := by
        unfold lastEvent
        split <;> simp
      rw [allEvents, List.length_append] at bound ⊢
      omega

theorem Held.grow (h : Held log closed received) (still : closed = false) (bytes : Bytes) :
    Held (log ++ bytes) closed received := by
  rcases h with part | ⟨shut, -⟩
  · exact .inl (part.trans (lineEvents_append log bytes))
  · rw [still] at shut
    cases shut

/-- What a stream has sent and kept when it has read to its offset. -/
def Sent (log : Bytes) (closed : Bool) (sent : List Event) (stream : Stream) : Prop :=
  (stream.offset ≤ log.length ∧
    drainLines 0 [] (log.take stream.offset) = (sent, stream.emitted, stream.pending)) ∨
  (closed = true ∧ sent = allEvents log ∧ stream.offset = log.length ∧ stream.emitted = log.length ∧
    stream.pending = [])

variable {stream : Stream}

theorem Sent.held (h : Sent log closed sent stream) : Held log closed sent := by
  rcases h with ⟨-, cut⟩ | ⟨shut, rfl, -⟩
  · refine .inl ?_
    have part := lineEvents_append (log.take stream.offset) (log.drop stream.offset)
    rwa [List.take_append_drop, lineEvents, cut] at part
  · exact .inr ⟨shut, rfl⟩

theorem Sent.grow (h : Sent log closed sent stream) (still : closed = false) (bytes : Bytes) :
    Sent (log ++ bytes) closed sent stream := by
  rcases h with ⟨bound, cut⟩ | ⟨shut, -⟩
  · refine .inl ⟨by simp only [List.length_append]; omega, ?_⟩
    rw [List.take_append_of_le_length bound]
    exact cut
  · rw [still] at shut
    cases shut

theorem Sent.close (h : Sent log closed sent stream) : Sent log true sent stream :=
  h.imp_right fun whole => ⟨rfl, whole.2⟩

theorem Held.close (h : Held log closed received) : Held log true received :=
  h.imp_right fun whole => ⟨rfl, whole.2⟩

/-- A chunk continues what was read. -/
theorem take_chunk (cap : Nat) {offset : Nat} (bound : offset ≤ log.length) :
    log.take offset ++ readCiRunLogChunk log offset cap
        = log.take (offset + (readCiRunLogChunk log offset cap).length) ∧
      offset + (readCiRunLogChunk log offset cap).length ≤ log.length := by
  unfold readCiRunLogChunk
  split
  · simp [bound]
  · have short : min (log.length - offset) cap ≤ (log.drop offset).length := by
      rw [List.length_drop]
      exact Nat.min_le_left _ _
    rw [List.length_take_of_le short]
    refine ⟨?_, by omega⟩
    rw [List.take_add]

theorem chunk_nil {offset : Nat} : readCiRunLogChunk log offset kChunkBytes = [] ↔ log.length ≤ offset := by
  unfold readCiRunLogChunk
  split
  · rename_i past
    exact ⟨fun _ => past, fun _ => rfl⟩
  · rename_i inside
    refine ⟨fun none => ?_, fun past => absurd past inside⟩
    have length := congrArg List.length none
    rw [List.length_take, List.length_drop, List.length_nil, kChunkBytes] at length
    omega

/-- The stream after reading a chunk and cutting its lines. -/
def advance (stream : Stream) (log : Bytes) : Stream :=
  let pulled := stream.pull log
  { pulled with
    emitted := (drainLines pulled.emitted [] pulled.pending).2.1
    pending := (drainLines pulled.emitted [] pulled.pending).2.2 }

def newEvents (stream : Stream) (log : Bytes) : List Event :=
  (drainLines stream.emitted [] (stream.pull log).pending).1

theorem Sent.advance (h : Sent log closed sent stream) :
    Sent log closed (sent ++ newEvents stream log) (advance stream log) := by
  rcases h with ⟨bound, cut⟩ | ⟨shut, rfl, offset, emitted, pending⟩
  · obtain ⟨continues, within⟩ := take_chunk kChunkBytes bound
    have plain : newline ∉ stream.pending := by
      have left := @drainLines_left 0 [] List.not_mem_nil (log.take stream.offset)
      rwa [cut] at left
    have resumed := @drainLines_resume stream.emitted _ (readCiRunLogChunk log stream.offset kChunkBytes) plain
    refine .inl ⟨within, ?_⟩
    change drainLines 0 [] (log.take (stream.offset + (readCiRunLogChunk log stream.offset kChunkBytes).length)) = _
    rw [← continues, drainLines_append, cut]
    simp only [newEvents, LogStream.advance, Stream.pull, resumed]
  · have nothing : readCiRunLogChunk log stream.offset kChunkBytes = [] := if_pos (by omega)
    refine .inr ⟨shut, ?_, ?_, ?_, ?_⟩
    · simp [newEvents, Stream.pull, nothing, pending, drainLines_nil]
    · change stream.offset + (readCiRunLogChunk log stream.offset kChunkBytes).length = log.length
      rw [nothing, offset]
      rfl
    · simp [LogStream.advance, Stream.pull, nothing, pending, drainLines_nil, emitted]
    · simp [LogStream.advance, Stream.pull, nothing, pending, drainLines_nil]

/-- At the end of the log the rest is its last line. -/
theorem Sent.finish (h : Sent log closed sent stream) (position : stream.offset = log.length) :
    sent ++ stream.rest = allEvents log := by
  rcases h with ⟨-, cut⟩ | ⟨-, rfl, -, -, pending⟩
  · rw [position, List.take_length] at cut
    have place := drainLines_position 0 [] log
    rw [cut] at place
    simp only [List.length_nil, Nat.add_zero, Nat.zero_add] at place
    rw [allEvents, lineEvents, lastEvent, cut, Stream.rest, place]
  · rw [Stream.rest, if_pos pending, List.append_nil]

def eventsOf (flight : List Message) : List Event :=
  flight.filterMap fun message => match message with
    | .event event => some event
    | .done => none

@[simp] theorem eventsOf_events (events : List Event) : eventsOf (events.map .event) = events := by
  induction events with
  | nil => rfl
  | cons event rest ih => simp [eventsOf]

@[simp] theorem eventsOf_append (first second : List Message) :
    eventsOf (first ++ second) = eventsOf first ++ eventsOf second := List.filterMap_append

@[simp] theorem eventsOf_done : eventsOf [.done] = [] := rfl

def Stream.batch (stream : Stream) : List Event :=
  match stream.phase with
  | .draining _ batch => batch
  | _ => []

/-- What the client gets from the stream if it stays. -/
def World.total (world : World) (stream : Stream) : List Event :=
  world.received ++ eventsOf stream.flight ++ stream.batch

/-- What a stream has sent while it goes on. -/
structure Going (world : World) (stream : Stream) : Prop where
  sent : Sent world.log world.closed (world.total stream) stream
  lines : ∃ events : List Event, stream.flight = events.map .event
  result : stream.afterResult = true → world.closed = true

/-- What a stream has sent that has ended. -/
structure Over (world : World) (stream : Stream) : Prop where
  held : Held world.log world.closed (world.received ++ eventsOf stream.flight)
  lines : stream.flight = [] ∨ ∃ events : List Event, stream.flight = events.map .event ++ [.done]
  result : stream.afterResult = true → world.closed = true ∧
    world.received ++ eventsOf stream.flight = allEvents world.log

structure Sound (step : Nat) (world : World) : Prop where
  held : Held world.log world.closed world.received
  finished : world.finished = true → world.closed = true ∧ world.received = allEvents world.log
  written : step < world.record.steps → world.closed = true
  small : world.log.length < 2 ^ 64
  going : ∀ stream, world.stream = some stream → stream.phase ≠ .ended → Going world stream
  settled : ∀ stream, world.stream = some stream → stream.phase = .ended → Over world stream

theorem Sound.delivered {step : Nat} {world : World} (h : Sound step world) : Delivered world where
  first := by
    rw [← allEvents_lines]
    exact h.held.first.map _
  whole := fun finished => by rw [(h.finished finished).2, allEvents_lines]

variable {step : Nat} {world : World}

theorem sound_grow (h : Sound step world) (bytes : Bytes) (still : world.closed = false)
    (small : (world.log ++ bytes).length < 2 ^ 64) : Sound step { world with log := world.log ++ bytes } := by
  have never {P : Prop} (shut : world.closed = true) : P := by
    rw [still] at shut
    cases shut
  refine ⟨h.held.grow still bytes, fun finished => never (h.finished finished).1, h.written, small, ?_, ?_⟩
  · intro stream here phase
    have before := h.going stream here phase
    exact ⟨before.sent.grow still bytes, before.lines, before.result⟩
  · intro stream here phase
    have before := h.settled stream here phase
    exact ⟨before.held.grow still bytes, before.lines, fun result => never (before.result result).1⟩

theorem sound_close (h : Sound step world) : Sound step { world with closed := true } := by
  refine ⟨h.held.close, fun finished => ⟨rfl, (h.finished finished).2⟩, fun _ => rfl, h.small, ?_, ?_⟩
  · intro stream here phase
    have before := h.going stream here phase
    exact ⟨before.sent.close, before.lines, fun _ => rfl⟩
  · intro stream here phase
    have before := h.settled stream here phase
    exact ⟨before.held.close, before.lines, fun result => ⟨rfl, (before.result result).2⟩⟩

theorem sound_record (h : Sound step world) (record : RunRecord) (written : step < record.steps → world.closed = true) :
    Sound step { world with record } := by
  refine ⟨h.held, h.finished, written, h.small, fun stream here phase => ?_, fun stream here phase => ?_⟩
  · have before := h.going stream here phase
    exact ⟨before.sent, before.lines, before.result⟩
  · have before := h.settled stream here phase
    exact ⟨before.held, before.lines, before.result⟩

theorem startOffset_lastEventId (small : lastId received < 2 ^ 64) : startOffset (lastEventId received) = lastId received := by
  cases shape : received.getLast? with
  | none => simp [startOffset, lastEventId, lastId, shape]
  | some event =>
    have place : lastId received = event.id := by simp [lastId, shape]
    rw [place] at small
    rw [place, startOffset, lastEventId, shape, Option.map_some, Option.getD_some, if_neg (decimal_ne_nil _),
      parseDecimal_decimal (by omega), Option.getD_some]

theorem Held.lastId_le (h : Held log closed received) : lastId received ≤ log.length := by
  rcases h with part | ⟨-, rfl⟩
  · exact (lineEvents_resume part).1
  · exact (lastId_allEvents log).le

theorem sound_connect (h : Sound step world) :
    Sound step { world with stream := some (.start (startOffset (lastEventId world.received))) } := by
  have small : lastId world.received < 2 ^ 64 := h.held.lastId_le.trans_lt h.small
  rw [startOffset_lastEventId small]
  refine ⟨h.held, h.finished, h.written, h.small, fun stream here _ => ?_, fun stream here phase => ?_⟩
  · obtain rfl := Option.some.inj here
    refine ⟨?_, ⟨[], rfl⟩, fun result => by cases result⟩
    have total : World.total { world with stream := some (.start (lastId world.received)) }
        (.start (lastId world.received)) = world.received := by
      simp [World.total, Stream.start, Stream.batch, eventsOf]
    rw [total]
    rcases h.held with part | ⟨shut, whole⟩
    · obtain ⟨bound, cut⟩ := lineEvents_resume part
      exact .inl ⟨bound, cut⟩
    · have place : lastId world.received = world.log.length := by rw [whole, lastId_allEvents]
      exact .inr ⟨shut, whole, place, place, rfl⟩
  · obtain rfl := Option.some.inj here
    cases phase

/-- A stream that goes on in the place of the old one. -/
theorem sound_going (h : Sound step world) {stream : Stream} (phase : stream.phase ≠ .ended)
    (going : Going { world with stream := some stream } stream) : Sound step { world with stream := some stream } := by
  refine ⟨h.held, h.finished, h.written, h.small, fun other here _ => ?_, fun other here ended => ?_⟩
  · obtain rfl := Option.some.inj here
    exact going
  · obtain rfl := Option.some.inj here
    exact absurd ended phase

theorem sound_poll (h : Sound step world) {stream : Stream} (here : world.stream = some stream)
    (phase : stream.phase = .tailing) : Sound step { world with stream := some (stream.poll world.log) } := by
  have before := h.going stream here (by rw [phase]; exact Phase.noConfusion)
  obtain ⟨events, flight⟩ := before.lines
  have fields : (stream.poll world.log).offset = (advance stream world.log).offset ∧
      (stream.poll world.log).emitted = (advance stream world.log).emitted ∧
      (stream.poll world.log).pending = (advance stream world.log).pending ∧
      (stream.poll world.log).flight = stream.flight ++ (newEvents stream world.log).map .event ∧
      (stream.poll world.log).afterResult = stream.afterResult ∧
      (stream.poll world.log).phase ≠ .ended ∧ (stream.poll world.log).batch = [] := by
    unfold Stream.poll
    simp only []
    split
    · exact ⟨rfl, rfl, rfl, rfl, rfl, Phase.noConfusion, rfl⟩
    · refine ⟨rfl, rfl, rfl, rfl, rfl, ?_, ?_⟩
      · change stream.phase ≠ .ended
        rw [phase]
        exact Phase.noConfusion
      · simp [Stream.batch, Stream.pull, phase]
  obtain ⟨offset, emitted, pending, sent, result, going, batch⟩ := fields
  refine sound_going h going ⟨?_, ⟨events ++ newEvents stream world.log, by rw [sent, flight, List.map_append]⟩,
    fun after => before.result (result ▸ after)⟩
  have read := before.sent.advance
  have old : stream.batch = [] := by simp [Stream.batch, phase]
  have total : World.total { world with stream := some (stream.poll world.log) } (stream.poll world.log)
      = world.total stream ++ newEvents stream world.log := by
    simp [World.total, sent, batch, old]
  rw [total, Sent, offset, emitted, pending]
  exact read

theorem sound_check (h : Sound step world) {stream : Stream} (here : world.stream = some stream)
    (phase : stream.phase = .checking) : Sound step { world with stream := some (stream.check step world.record) } := by
  have before := h.going stream here (by rw [phase]; exact Phase.noConfusion)
  have next : (stream.check step world.record).phase ≠ .ended ∧ (stream.check step world.record).batch = [] := by
    have either : (stream.check step world.record).phase = .tailing ∨
        (stream.check step world.record).phase = .draining 0 [] := ite_eq_or_eq _ _ _
    rcases either with same | same
    · rw [Stream.batch, same]
      exact ⟨Phase.noConfusion, rfl⟩
    · rw [Stream.batch, same]
      exact ⟨Phase.noConfusion, rfl⟩
  have old : stream.batch = [] := by simp [Stream.batch, phase]
  refine sound_going h next.1 ⟨?_, before.lines, fun after => h.written (of_decide_eq_true after)⟩
  have total : World.total { world with stream := some (stream.check step world.record) } (stream.check step world.record)
      = world.total stream := by
    rw [World.total, next.2, World.total, old]
    rfl
  rw [total]
  exact before.sent

theorem sound_drain (h : Sound step world) {stream : Stream} {guard : Nat} {batch : List Event}
    (here : world.stream = some stream) (phase : stream.phase = .draining guard batch) (clean : EndsClean world) :
    Sound step { world with stream := some (stream.drain world.log guard batch) } := by
  have before := h.going stream here (by rw [phase]; exact Phase.noConfusion)
  obtain ⟨events, flight⟩ := before.lines
  have old : stream.batch = batch := by simp [Stream.batch, phase]
  by_cases more : guard < 256 ∧ readCiRunLogChunk world.log stream.offset kChunkBytes ≠ []
  · have shape : stream.drain world.log guard batch =
        { advance stream world.log with phase := .draining (guard + 1) (batch ++ newEvents stream world.log) } :=
      if_pos more
    rw [shape]
    refine sound_going h Phase.noConfusion ⟨?_, ⟨events, flight⟩, before.result⟩
    have read := before.sent.advance
    rw [World.total, old, List.append_assoc] at read
    exact read
  · have shape : stream.drain world.log guard batch = stream.finish batch := if_neg more
    have ends : 256 ≤ guard ∨ world.log.length ≤ stream.offset := by
      by_contra still
      push Not at still
      exact more ⟨still.1, fun none => absurd (chunk_nil.mp none) (not_le.mpr still.2)⟩
    obtain ⟨rest, result⟩ := clean stream guard batch here phase ends
    have flown : world.received ++ eventsOf (stream.finish batch).flight = world.total stream ++ stream.rest := by
      simp [Stream.finish, World.total, old]
    rw [shape]
    refine ⟨h.held, h.finished, h.written, h.small, fun other same ended => ?_, fun other same _ => ?_⟩
    · obtain rfl := Option.some.inj same
      exact absurd rfl ended
    · obtain rfl := Option.some.inj same
      refine ⟨?_, .inr ⟨events ++ (batch ++ stream.rest), ?_⟩, fun after => ⟨before.result after, ?_⟩⟩
      · change Held world.log world.closed (world.received ++ eventsOf (stream.finish batch).flight)
        rw [flown]
        by_cases none : stream.pending = []
        · rw [Stream.rest, if_pos none, List.append_nil]
          exact before.sent.held
        · obtain ⟨shut, position⟩ := rest none
          exact .inr ⟨shut, before.sent.finish position⟩
      · rw [List.map_append, ← flight]
        rfl
      · change world.received ++ eventsOf (stream.finish batch).flight = _
        rw [flown]
        exact before.sent.finish (result after)

theorem sound_receive_event (h : Sound step world) {stream : Stream} {event : Event} {rest : List Message}
    (here : world.stream = some stream) (flight : stream.flight = .event event :: rest) :
    Sound step (world.take stream (.event event) rest) := by
  have flown : world.received ++ eventsOf stream.flight = world.received ++ [event] ++ eventsOf rest := by
    simp [flight, eventsOf]
  have sent : Held world.log world.closed (world.received ++ [event] ++ eventsOf rest) := by
    by_cases ended : stream.phase = .ended
    · exact flown ▸ (h.settled stream here ended).held
    · have total := (h.going stream here ended).sent.held
      rw [World.total, flown] at total
      exact total.part (List.prefix_append _ _)
  have held := sent.part (List.prefix_append _ _)
  have unfinished : world.finished = true → False := fun finished => by
    obtain ⟨-, whole⟩ := h.finished finished
    have bound := held.first.length_le
    rw [whole, List.length_append, List.length_singleton] at bound
    omega
  refine ⟨held, fun finished => (unfinished finished).elim, h.written, h.small, fun other same ended => ?_,
    fun other same ended => ?_⟩
  · obtain rfl := Option.some.inj same
    have before := h.going stream here ended
    refine ⟨?_, ?_, before.result⟩
    · have total : World.total (world.take stream (.event event) rest) { stream with flight := rest }
          = world.total stream := by
        rw [World.total, World.total, flown]
        rfl
      rw [total]
      exact before.sent
    · obtain ⟨events, all⟩ := before.lines
      rw [flight] at all
      cases events with
      | nil => cases all
      | cons first others => exact ⟨others, (List.cons.inj all).2⟩
  · obtain rfl := Option.some.inj same
    have before := h.settled stream here ended
    refine ⟨sent, ?_, fun after => ⟨(before.result after).1, ?_⟩⟩
    · rcases before.lines with none | ⟨events, all⟩
      · rw [none] at flight
        cases flight
      · rw [flight] at all
        cases events with
        | nil => cases (List.cons.inj all).1
        | cons first others => exact .inr ⟨others, (List.cons.inj all).2⟩
    · exact flown.symm.trans (before.result after).2

theorem sound_receive_done (h : Sound step world) {stream : Stream} {rest : List Message}
    (here : world.stream = some stream) (flight : stream.flight = .done :: rest) :
    Sound step (world.take stream .done rest) := by
  have ended : stream.phase = .ended := by
    by_contra going
    obtain ⟨events, all⟩ := (h.going stream here going).lines
    rw [flight] at all
    cases events with
    | nil => cases all
    | cons first others => cases (List.cons.inj all).1
  have before := h.settled stream here ended
  have last : rest = [] := by
    rcases before.lines with none | ⟨events, all⟩
    · rw [none] at flight
      cases flight
    · rw [flight] at all
      cases events with
      | nil => exact (List.cons.inj all).2
      | cons first others => cases (List.cons.inj all).1
  have nothing : eventsOf stream.flight = [] := by rw [flight, last, eventsOf_done]
  subst last
  refine ⟨h.held, fun finished => ?_, h.written, h.small, fun other same going => ?_, fun other same _ => ?_⟩
  · rcases Bool.or_eq_true_iff.mp finished with old | after
    · exact h.finished old
    · obtain ⟨shut, whole⟩ := before.result after
      rw [nothing, List.append_nil] at whole
      exact ⟨shut, whole⟩
  · obtain rfl := Option.some.inj same
    exact absurd ended going
  · obtain rfl := Option.some.inj same
    have held := before.held
    rw [nothing] at held
    refine ⟨held, .inl rfl, fun after => ?_⟩
    have result := before.result after
    rw [nothing] at result
    exact result

theorem sound_receive (h : Sound step world) {stream : Stream} {message : Message} {rest : List Message}
    (here : world.stream = some stream) (flight : stream.flight = message :: rest) :
    Sound step (world.take stream message rest) := by
  cases message with
  | event event => exact sound_receive_event h here flight
  | done => exact sound_receive_done h here flight

theorem sound_drop (h : Sound step world) : Sound step { world with stream := none } := by
  refine ⟨h.held, h.finished, h.written, h.small, fun other gone _ => ?_, fun other gone _ => ?_⟩
  · cases gone
  · cases gone

theorem sound_step {after : World} (h : Sound step world) (clean : EndsClean world) (moves : Step step world after) :
    Sound step after := by
  cases moves with
  | grow bytes still small => exact sound_grow h bytes still small
  | close => exact sound_close h
  | record record attempt steps kept written => exact sound_record h record written
  | connect => exact sound_connect h
  | poll stream here phase => exact sound_poll h here phase
  | check stream here phase => exact sound_check h here phase
  | drain stream guard batch here phase => exact sound_drain h here phase clean
  | receive stream message rest here flight => exact sound_receive h here flight
  | drop => exact sound_drop h

theorem sound_initial (initial : Initial step world) : Sound step world where
  held := .inl (by rw [initial.received]; exact List.nil_prefix)
  finished := fun finished => by
    rw [initial.finished] at finished
    cases finished
  written := fun recorded => absurd recorded (not_lt.mpr initial.record)
  small := by
    rw [initial.log]
    decide
  going := fun stream here => by
    rw [initial.stream] at here
    cases here
  settled := fun stream here => by
    rw [initial.stream] at here
    cases here

theorem cleanRun_sound (run : CleanRun step world) : Sound step world := by
  induction run with
  | start world initial => exact sound_initial initial
  | next world after before clean moves ih => exact sound_step ih clean moves

/-- In a run whose streams all end cleanly the client holds at every moment the
first lines of the log, and the whole log once it was told that the step is done. -/
theorem clean_delivered (step : Nat) (world : World) (run : CleanRun step world) : Delivered world :=
  (cleanRun_sound run).delivered

theorem endsClean_going {stream : Stream} (here : world.stream = some stream)
    (phase : ∀ guard batch, stream.phase ≠ .draining guard batch) : EndsClean world := by
  intro other guard batch same draining
  obtain rfl := Option.some.inj (here.symm.trans same)
  exact absurd draining (phase guard batch)

private theorem endsClean_none (none : world.stream = none) : EndsClean world := by
  intro other guard batch same
  rw [none] at same
  cases same

private def sampleWorld (log : Bytes) (ended : Bool) (stream : Option Stream) (received : List Event) : World :=
  { log, closed := ended, stream, received
    record := if ended then { status := .success, attempt := 1, steps := 1 }
      else { status := .running, attempt := 1, steps := 0 } }

/-- The first stream holds half a line. -/
private def firstStream (flight : List Message) : Stream :=
  { offset := 3, emitted := 2, pending := ascii "b", sinceStatus := 1, flight }

/-- The second stream begins behind the first line. -/
private def secondStream (phase : Phase) (sinceStatus : Nat) (afterResult : Bool) (flight : List Message) : Stream :=
  { offset := 5, emitted := 5, sinceStatus, phase, flight, afterResult, attempt := if afterResult then 1 else 0 }

private theorem sample_poll {log : Bytes} {ended : Bool} {stream : Stream} {received : List Event}
    (run : CleanRun 0 (sampleWorld log ended (some stream) received)) (phase : stream.phase = .tailing) :
    CleanRun 0 (sampleWorld log ended (some (stream.poll log)) received) :=
  .next _ _ run (endsClean_going rfl fun _ _ other => by rw [phase] at other; cases other) (.poll _ stream rfl phase)

private theorem sample_receive {log : Bytes} {ended : Bool} {stream : Stream} {received : List Event} {event : Event}
    {rest : List Message} (run : CleanRun 0 (sampleWorld log ended (some stream) received))
    (phase : stream.phase = .tailing) (flight : stream.flight = .event event :: rest) :
    CleanRun 0 (sampleWorld log ended (some { stream with flight := rest }) (received ++ [event])) :=
  .next _ _ run (endsClean_going rfl fun _ _ other => by rw [phase] at other; cases other)
    (.receive _ stream (.event event) rest rfl flight)

/-- A stream brings the first line and is lost; the second one sees that the step has ended and brings the
rest. -/
theorem clean_delivered_reconnected : ∃ world, CleanRun 0 world ∧ world.finished = true
    ∧ world.received = [⟨2, ascii "a"⟩, ⟨5, ascii "bc"⟩] ∧ Delivered world := by
  have initial : Initial 0 (sampleWorld [] false none []) := ⟨rfl, le_refl 0, rfl, rfl, rfl⟩
  have half : CleanRun 0 (sampleWorld (ascii "a\nb") false none []) :=
    .next _ _ (.start _ initial) (endsClean_none rfl) (.grow _ (ascii "a\nb") rfl (by decide))
  have connected : CleanRun 0 (sampleWorld (ascii "a\nb") false (some (.start 0)) []) :=
    .next _ _ half (endsClean_none rfl) (.connect _)
  have polled : CleanRun 0 (sampleWorld (ascii "a\nb") false (some (firstStream [.event ⟨2, ascii "a"⟩])) []) :=
    sample_poll connected rfl
  have first : CleanRun 0 (sampleWorld (ascii "a\nb") false (some (firstStream [])) [⟨2, ascii "a"⟩]) :=
    sample_receive polled rfl rfl
  have lost : CleanRun 0 (sampleWorld (ascii "a\nb") false none [⟨2, ascii "a"⟩]) :=
    .next _ _ first (endsClean_going rfl nofun) (.drop _)
  have whole : CleanRun 0 (sampleWorld (ascii "a\nbc\n") false none [⟨2, ascii "a"⟩]) :=
    .next _ _ lost (endsClean_none rfl) (.grow _ (ascii "c\n") rfl (by decide))
  have closed := CleanRun.next _ _ whole (endsClean_none rfl) (.close _)
  have recorded : CleanRun 0 (sampleWorld (ascii "a\nbc\n") true none [⟨2, ascii "a"⟩]) :=
    .next _ _ closed (endsClean_none rfl)
      (.record _ { status := .success, attempt := 1, steps := 1 } rfl (by decide) (by decide) fun _ => rfl)
  have again : CleanRun 0 (sampleWorld (ascii "a\nbc\n") true (some (.start 2)) [⟨2, ascii "a"⟩]) :=
    .next _ _ recorded (endsClean_none rfl) (.connect _)
  have once : CleanRun 0 (sampleWorld (ascii "a\nbc\n") true
      (some (secondStream .tailing 1 false [.event ⟨5, ascii "bc"⟩])) [⟨2, ascii "a"⟩]) := sample_poll again rfl
  have second : CleanRun 0 (sampleWorld (ascii "a\nbc\n") true (some (secondStream .tailing 1 false []))
      [⟨2, ascii "a"⟩, ⟨5, ascii "bc"⟩]) := sample_receive once rfl rfl
  have asked : CleanRun 0 (sampleWorld (ascii "a\nbc\n") true (some (secondStream .checking 0 false []))
      [⟨2, ascii "a"⟩, ⟨5, ascii "bc"⟩]) := sample_poll (sample_poll (sample_poll second rfl) rfl) rfl
  have checked : CleanRun 0 (sampleWorld (ascii "a\nbc\n") true (some (secondStream (.draining 0 []) 0 true []))
      [⟨2, ascii "a"⟩, ⟨5, ascii "bc"⟩]) :=
    .next _ _ asked (endsClean_going rfl nofun) (.check _ (secondStream .checking 0 false []) rfl rfl)
  have clean : EndsClean (sampleWorld (ascii "a\nbc\n") true (some (secondStream (.draining 0 []) 0 true []))
      [⟨2, ascii "a"⟩, ⟨5, ascii "bc"⟩]) := by
    rintro stream guard batch ⟨⟩ _ _
    exact ⟨fun half_line => absurd rfl half_line, fun _ => rfl⟩
  have drained : CleanRun 0 (sampleWorld (ascii "a\nbc\n") true (some (secondStream .ended 0 true [.done]))
      [⟨2, ascii "a"⟩, ⟨5, ascii "bc"⟩]) :=
    .next _ _ checked clean (.drain _ (secondStream (.draining 0 []) 0 true []) 0 [] rfl rfl)
  have done := CleanRun.next _ _ drained (endsClean_going rfl nofun)
    (.receive _ (secondStream .ended 0 true [.done]) .done [] rfl rfl)
  exact ⟨_, done, rfl, rfl, clean_delivered 0 _ done⟩

end CkGit.LogStream
