import CkGit.Stream.Steps

/-!
How the bytes of a stream arrive: consuming them in pieces comes to what
consuming them at once comes to, unless a header line longer than the limit is
reached, which is refused only when its end has not arrived yet.
-/
namespace CkGit.Stream
open CkGit.Base CkGit.Ci

theorem takeWhile_first {line after : Bytes} (clean : newline ∉ line) :
    (line ++ newline :: after).takeWhile (· != newline) = line
      ∧ ((line ++ newline :: after).dropWhile (· != newline)).drop 1 = after := by
  have all : ∀ byte ∈ line, (byte != newline) = true := fun byte member =>
    bne_iff_ne.mpr fun same => clean (same ▸ member)
  constructor
  · rw [List.takeWhile_append_of_pos all]
    simp
  · rw [List.dropWhile_append_of_pos all]
    simp

/-- A buffer with a newline starts with a whole line. -/
theorem first_line {buffer : Bytes} (present : newline ∈ buffer) :
    ∃ line after, buffer = line ++ newline :: after ∧ newline ∉ line := by
  induction buffer with
  | nil => cases present
  | cons byte rest ih =>
    by_cases ends : byte = newline
    · exact ⟨[], rest, by rw [ends]; rfl, List.not_mem_nil⟩
    · obtain ⟨line, after, rfl, clean⟩ := ih ((List.mem_cons.mp present).resolve_left (Ne.symm ends))
      refine ⟨byte :: line, after, rfl, ?_⟩
      simp only [List.mem_cons, not_or]
      exact ⟨Ne.symm ends, clean⟩

theorem readFrame_line {line after : Bytes} (clean : newline ∉ line) :
    readFrame (line ++ newline :: after) = readHeader line after := by
  obtain ⟨start, rest⟩ := @takeWhile_first line after clean
  rw [readFrame, if_pos (by simp), start, rest]

theorem readFrame_unfinished {buffer : Bytes} (clean : newline ∉ buffer) :
    readFrame buffer = if buffer.length > kMaximumHeaderBytes then .fail tooLong else .wait :=
  if_neg clean

theorem readLog_frame {index offset after rest : Bytes} {length : Nat} {next : StreamFrame}
    (h : readLog index offset length after = .frame next rest) :
    ∃ payload, after = payload ++ rest
      ∧ ∀ other, readLog index offset length (payload ++ other) = .frame next other := by
  unfold readLog at h
  split at h
  case isTrue => cases h
  rename_i enough
  have short : (after.take length).length = length := List.length_take_of_le (by omega)
  have long : ∀ other, ¬ (after.take length ++ other).length < length := by
    intro other
    rw [List.length_append]
    omega
  cases first : parse index with
  | error error => simp [first] at h
  | ok index =>
    cases second : parse offset with
    | error error => simp [first, second] at h
    | ok offset =>
      simp only [first, second, Next.frame.injEq] at h
      obtain ⟨rfl, rfl⟩ := h
      refine ⟨after.take length, (List.take_append_drop length after).symm, fun other => ?_⟩
      rw [readLog, if_neg (long other)]
      simp only [first, second, List.take_left' short, List.drop_left' short]

theorem readLog_fail {index offset after error : Bytes} {length : Nat}
    (h : readLog index offset length after = .fail error) (other : Bytes) :
    readLog index offset length (after ++ other) = .fail error := by
  unfold readLog at h ⊢
  split at h
  case isTrue => cases h
  rename_i enough
  have long : ¬ (after ++ other).length < length := by
    rw [List.length_append]
    omega
  rw [if_neg long]
  cases first : parse index with
  | error error => simpa [first] using h
  | ok index =>
    cases second : parse offset with
    | error error => simpa [first, second] using h
    | ok offset => simp [first, second] at h

theorem readHeader_frame {header after rest : Bytes} {next : StreamFrame}
    (h : readHeader header after = .frame next rest) :
    ∃ payload, after = payload ++ rest ∧ ∀ other, readHeader header (payload ++ other) = .frame next other := by
  unfold readHeader at h
  split at h
  case h_2 => cases h
  rename_i kind tokens pieces
  by_cases log : kind = ascii "log"
  · rw [if_pos log] at h
    split at h
    case h_2 => cases h
    rename_i index offset size
    cases number : parse size with
    | error error => simp [number] at h
    | ok length =>
      simp only [number] at h
      split at h
      case isTrue => cases h
      rename_i fits
      obtain ⟨payload, whole, every⟩ := readLog_frame h
      refine ⟨payload, whole, fun other => ?_⟩
      simp only [readHeader, pieces, if_pos log, number, if_neg fits]
      exact every other
  · rw [if_neg log, Next.frame.injEq] at h
    obtain ⟨rfl, rfl⟩ := h
    refine ⟨[], rfl, fun other => ?_⟩
    simp only [readHeader, pieces, if_neg log, List.nil_append]

theorem readHeader_fail {header after error : Bytes} (h : readHeader header after = .fail error)
    (other : Bytes) : readHeader header (after ++ other) = .fail error := by
  unfold readHeader at h ⊢
  split at h
  case h_2 => cases h
  rename_i kind tokens pieces
  by_cases log : kind = ascii "log"
  · rw [if_pos log] at h
    simp only [if_pos log]
    split at h
    case h_2 => exact h
    rename_i index offset size
    cases number : parse size with
    | error error => simpa [number] using h
    | ok length =>
      simp only [number] at h ⊢
      split at h
      case isTrue fits =>
        rw [if_pos fits]
        exact h
      rename_i fits
      rw [if_neg fits]
      exact readLog_fail h other
  · rw [if_neg log] at h
    cases h

/-- A frame read takes a prefix of the buffer, whatever follows it. -/
theorem readFrame_frame {buffer rest : Bytes} {next : StreamFrame}
    (h : readFrame buffer = .frame next rest) :
    ∃ taken, taken ≠ [] ∧ buffer = taken ++ rest
      ∧ ∀ other, readFrame (taken ++ other) = .frame next other := by
  by_cases present : newline ∈ buffer
  · obtain ⟨line, after, rfl, clean⟩ := first_line present
    rw [readFrame_line clean] at h
    obtain ⟨payload, rfl, every⟩ := readHeader_frame h
    refine ⟨line ++ newline :: payload, by simp, by simp, fun other => ?_⟩
    have shape : line ++ newline :: payload ++ other = line ++ newline :: (payload ++ other) := by simp
    rw [shape, readFrame_line clean]
    exact every other
  · rw [readFrame_unfinished present] at h
    split at h <;> cases h

/-- A refusal after a whole header stands, whatever follows. -/
theorem readFrame_fail {buffer error : Bytes} (h : readFrame buffer = .fail error)
    (present : newline ∈ buffer) (other : Bytes) : readFrame (buffer ++ other) = .fail error := by
  obtain ⟨line, after, rfl, clean⟩ := first_line present
  rw [readFrame_line clean] at h
  have shape : line ++ newline :: after ++ other = line ++ newline :: (after ++ other) := by simp
  rw [shape, readFrame_line clean]
  exact readHeader_fail h other

/-- The action throws no error with this text. -/
def Spares {α : Type} (text : Bytes) (action : StreamM α) : Prop :=
  ∀ session after, action.perform session ≠ (.error text, after)

section
variable {α β : Type} {text : Bytes}

theorem Spares.pure (a : α) : Spares text (pure a : StreamM α) := by
  intro _ _ same
  cases same

theorem Spares.throw {error : Bytes} (other : error ≠ text) : Spares text (throw error : StreamM α) := by
  intro _ _ same
  cases same
  exact other rfl

theorem Spares.modify (change : Session → Session) : Spares text (modify change : StreamM Unit) := by
  intro _ _ same
  cases same

theorem Spares.set (session : Session) : Spares text (set session : StreamM Unit) := by
  intro _ _ same
  cases same

theorem Spares.bind {action : StreamM α} {next : α → StreamM β} (first : Spares text action)
    (later : ∀ a, Spares text (next a)) : Spares text (action >>= next) := by
  intro session after same
  rw [perform_bind] at same
  rcases ran : action.perform session with ⟨error | a, middle⟩
  · rw [ran] at same
    cases same
    exact first session _ ran
  · rw [ran] at same
    exact later a middle after same

theorem Spares.get {next : Session → StreamM β} (later : ∀ session, Spares text (next session)) :
    Spares text (get >>= next) := fun session after => later session session after

theorem Spares.ite {condition : Prop} [Decidable condition] {first second : StreamM α}
    (holds : Spares text first) (fails : Spares text second) :
    Spares text (if condition then first else second) := by
  split
  · exact holds
  · exact fails

theorem Spares.orThrow {value : Except Bytes α} (other : ∀ error, value = .error error → error ≠ text) :
    Spares text (orThrow value) := by
  cases value with
  | error error => exact .throw (other error rfl)
  | ok a => exact .pure a

end

theorem parse_spares {token error : Bytes} (h : parse token = .error error) : error ≠ tooLong := by
  unfold parse at h
  split at h
  · cases h
  · cases h
    decide +kernel

theorem parseExit_spares {token error : Bytes} (h : parseExit token = .error error) : error ≠ tooLong := by
  have mapped : ∀ {token} {f : Nat → Int32}, (parse token).map f = .error error → error ≠ tooLong := by
    intro token f h
    cases read : parse token with
    | error other =>
      rw [read] at h
      cases h
      exact parse_spares read
    | ok value =>
      rw [read] at h
      cases h
  unfold parseExit at h
  split at h
  · split at h <;> exact mapped h
  · exact mapped h

theorem report_spares {report : Bytes} {error : String} (h : parseCiExecutionReport report = .error error) :
    ascii error ≠ tooLong := by
  unfold parseCiExecutionReport at h
  split at h
  · cases h
    decide +kernel
  · split at h
    · dsimp only at h
      split at h
      · cases h
        decide +kernel
      · split at h
        · split at h
          · cases h
          · cases h
            decide +kernel
        · cases h
          decide +kernel
    · cases h
      decide +kernel

theorem recordText_spares {record : CiRunRecord} {error : String} (h : runRecordText record = .error error) :
    ascii error ≠ tooLong := by
  simp only [runRecordText, failIf, bind_error, rejectIf_error] at h
  rcases h with ⟨_, rfl⟩ | ⟨_, _, ⟨_, rfl⟩ | ⟨_, _, ⟨_, rfl⟩ | ⟨_, _, wrong⟩⟩⟩
  · decide +kernel
  · decide +kernel
  · decide +kernel
  · cases wrong

section
variable {environment : Environment} (quiet : ∀ question, environment.refreshed question ≠ .error tooLong)

theorem nowEpoch_spares : Spares tooLong (nowEpoch environment) :=
  .get fun _ => .bind (.set _) fun _ => .pure _

include quiet in
theorem refreshed_spares : Spares tooLong (refreshed environment) := by
  refine .get fun session => .bind (.set _) fun _ => ?_
  cases answer : environment.refreshed session.questions with
  | ok => exact .pure ()
  | error error => exact .throw fun same => quiet session.questions (answer.trans (congrArg _ same))

theorem storeRecord_spares : Spares tooLong storeRecord := by
  refine .get fun session => ?_
  cases text : runRecordText session.record with
  | ok => exact .set _
  | error error => exact .throw (recordText_spares text)

include quiet in
theorem write_spares (force : Bool) : Spares tooLong (write environment force) := by
  refine .bind nowEpoch_spares fun now => .get fun session => .ite (.pure ()) ?_
  refine .bind (.modify _) fun _ => .bind (.modify _) fun _ => .bind storeRecord_spares fun _ => ?_
  exact .ite (.bind (refreshed_spares quiet) fun _ => .modify _) (.pure ())

theorem appendLog_spares (index offset : Nat) (bytes : Bytes) :
    Spares tooLong (appendLog environment index offset bytes) := by
  refine .get fun session => .ite (.throw ?_) ?_
  · decide +kernel
  · exact .ite (.modify _) (.bind (.set _) fun _ => .modify _)

include quiet in
theorem started_spares (time : Bytes) : Spares tooLong (started environment time) := by
  refine .bind (.modify _) fun _ => .bind (.orThrow fun _ => parse_spares) fun number => ?_
  dsimp only
  refine .ite (.bind (.pure _) fun _ => ?_) (.bind nowEpoch_spares fun _ => ?_)
  · exact .bind (.modify _) fun _ => write_spares quiet true
  · exact .bind (.modify _) fun _ => write_spares quiet true

include quiet in
theorem execution_spares (report : Bytes) : Spares tooLong (execution environment report) := by
  refine .ite (.bind (.modify _) fun _ => write_spares quiet true) (.bind (.orThrow ?_) fun _ => ?_)
  · intro error same
    cases parsed : parseCiExecutionReport report with
    | error text =>
      rw [parsed] at same
      cases same
      exact report_spares parsed
    | ok =>
      rw [parsed] at same
      cases same
  · exact .bind (.modify _) fun _ => write_spares quiet true

include quiet in
theorem stepStart_spares (index : Bytes) : Spares tooLong (stepStart environment index) := by
  refine .bind (.orThrow fun _ => parse_spares) fun number => .get fun session => .ite ?_ (.pure ())
  exact .bind (.set _) fun _ => .bind (.modify _) fun _ => write_spares quiet true

include quiet in
theorem stepEnd_spares (index exit_text timed_out truncated name : Bytes) :
    Spares tooLong (stepEnd environment index exit_text timed_out truncated name) := by
  refine .bind (.orThrow fun _ => parse_spares) fun number => .get fun session => .ite ?_ (.pure ())
  refine .bind (.orThrow fun _ => parseExit_spares) fun exit_code => ?_
  cases fromHexOrDash name kMaximumHexTextBytes with
  | none => exact .throw (by decide +kernel)
  | some name => exact .bind (.modify _) fun _ => write_spares quiet true

include quiet in
theorem heartbeat_spares : Spares tooLong (heartbeat environment) := by
  refine .get fun session => .bind (.set _) fun _ => .ite (.bind (.modify _) fun _ => .pure false) ?_
  refine .bind (write_spares quiet false) fun _ => .bind nowEpoch_spares fun now => .get fun session => ?_
  exact .ite (.bind (.set _) fun _ => .bind (refreshed_spares quiet) fun _ => .pure true) (.pure true)

include quiet in
theorem progress_spares (detail : Bytes) : Spares tooLong (progress environment detail) := by
  unfold progress
  cases fromHexOrDash detail kMaximumCiDetailBytes with
  | none => exact .throw (by decide +kernel)
  | some detail => exact .bind (.modify _) fun _ => write_spares quiet true

include quiet in
theorem handle_spares (next : StreamFrame) : Spares tooLong (handle environment next) := by
  cases next with
  | log index offset bytes => exact .bind (appendLog_spares index offset bytes) fun _ => .pure true
  | line tokens =>
    have unknown : Spares tooLong (throw (ascii "unknown stream frame '" ++ tokens.headD [] ++ ascii "'") :
        StreamM Bool) := by
      refine .throw fun same => ?_
      have first := congrArg (List.take 1) same
      rw [List.append_assoc, List.take_append_of_le_length (by decide +kernel)] at first
      exact absurd first (by decide +kernel)
    unfold handle frame
    dsimp only
    split
    · exact .ite (heartbeat_spares quiet) unknown
    · refine .ite (.bind (started_spares quiet _) fun _ => .pure true) (.ite ?_ (.ite ?_ unknown))
      · exact .bind (execution_spares quiet _) fun _ => .pure true
      · exact .bind (progress_spares quiet _) fun _ => .pure true
    · exact .ite (.bind (stepStart_spares quiet _) fun _ => .pure true) unknown
    · exact .ite (.bind (stepEnd_spares quiet _ _ _ _ _) fun _ => .pure true) unknown
    · exact unknown

end

variable (environment : Environment)

/-- The session takes frames from the buffer and goes on. -/
inductive Reached : Session → Bytes → Session → Bytes → Prop where
  | refl (session : Session) (buffer : Bytes) : Reached session buffer session buffer
  | step {session middle last : Session} {buffer rest left : Bytes} {next : StreamFrame}
      (read : readFrame buffer = .frame next rest)
      (handled : (handle environment next).perform session = (.ok true, middle))
      (later : Reached middle rest last left) : Reached session buffer last left

/-- A whole header line longer than the limit is next. -/
def LongHeader (buffer : Bytes) : Prop :=
  newline ∈ buffer ∧ kMaximumHeaderBytes < (buffer.takeWhile (· != newline)).length

variable {environment} {session last : Session} {buffer left : Bytes}

theorem readFrame_shorter {rest : Bytes} {next : StreamFrame} (h : readFrame buffer = .frame next rest) :
    rest.length < buffer.length := by
  obtain ⟨taken, filled, rfl, _⟩ := readFrame_frame h
  have := List.length_pos_iff.mpr filled
  simp only [List.length_append]
  omega

/-- Rounds to spare change nothing. -/
theorem consumeRounds_enough {rounds : Nat} (enough : buffer.length < rounds) :
    consumeRounds environment rounds buffer session = consume environment buffer session := by
  have spare : ∀ first second : Nat, buffer.length < first → buffer.length < second →
      consumeRounds environment first buffer session = consumeRounds environment second buffer session := by
    clear enough
    intro first
    induction first generalizing buffer session with
    | zero => intro second enough; omega
    | succ first ih =>
      intro second enough others
      cases second with
      | zero => omega
      | succ second =>
        unfold consumeRounds
        cases read : readFrame buffer with
        | wait => rfl
        | fail error => rfl
        | frame next rest =>
          have shorter := readFrame_shorter read
          simp only
          rcases (handle environment next).perform session with ⟨_ | more, after⟩
          · rfl
          · cases more
            · rfl
            · exact ih second (by omega) (by omega)
  exact spare _ _ enough (Nat.lt_succ_self _)

theorem consume_step {middle : Session} {rest : Bytes} {next : StreamFrame}
    (read : readFrame buffer = .frame next rest)
    (handled : (handle environment next).perform session = (.ok true, middle)) :
    consume environment buffer session = consume environment rest middle := by
  have shorter := readFrame_shorter read
  conv_lhs => unfold consume consumeRounds
  simp only [read, handled]
  exact consumeRounds_enough shorter

theorem consume_reached (h : Reached environment session buffer last left) :
    consume environment buffer session = consume environment left last := by
  induction h with
  | refl => rfl
  | step read handled _ ih => rw [consume_step read handled, ih]

theorem Reached.trans {middle : Session} {between : Bytes}
    (first : Reached environment session buffer middle between)
    (second : Reached environment middle between last left) :
    Reached environment session buffer last left := by
  induction first with
  | refl => exact second
  | step read handled _ ih => exact .step read handled (ih second)

/-- The bytes taken lead to the same session whatever follows them. -/
theorem Reached.taken (h : Reached environment session buffer last left) :
    ∃ taken, buffer = taken ++ left
      ∧ ∀ other, Reached environment session (taken ++ other) last other := by
  induction h with
  | refl session buffer => exact ⟨[], rfl, fun other => .refl _ _⟩
  | step read handled _ ih =>
    obtain ⟨first, _, rfl, every⟩ := readFrame_frame read
    obtain ⟨rest, rfl, later⟩ := ih
    refine ⟨first ++ rest, by simp, fun other => ?_⟩
    rw [List.append_assoc]
    exact .step (every _) handled (later other)

theorem Reached.append (h : Reached environment session buffer last left) (other : Bytes) :
    Reached environment session (buffer ++ other) last (left ++ other) := by
  obtain ⟨taken, rfl, every⟩ := h.taken
  rw [List.append_assoc]
  exact every _

variable (environment) in
/-- Where a session stops: at a buffer with no whole frame, at a refused header, or in a frame
that ends it. -/
inductive Stops : Session → Bytes → Consumed → Prop where
  | wait {session : Session} {buffer : Bytes} (read : readFrame buffer = .wait) :
      Stops session buffer { session, buffer, verdict := .accepted }
  | fail {session : Session} {buffer error : Bytes} (read : readFrame buffer = .fail error) :
      Stops session buffer { session, buffer, verdict := .refused error }
  | closed {session middle : Session} {buffer rest : Bytes} {next : StreamFrame}
      (read : readFrame buffer = .frame next rest)
      (handled : (handle environment next).perform session = (.ok false, middle)) :
      Stops session buffer { session := middle, buffer := rest, verdict := .closed }
  | thrown {session middle : Session} {buffer rest error : Bytes} {next : StreamFrame}
      (read : readFrame buffer = .frame next rest)
      (handled : (handle environment next).perform session = (.error error, middle)) :
      Stops session buffer { session := middle, buffer := rest, verdict := .refused error }

theorem Stops.consume_eq {consumed : Consumed}
    (h : Stops environment session buffer consumed) :
    consume environment buffer session = consumed := by
  unfold consume consumeRounds
  cases h with
  | wait read => simp only [read]
  | fail read => simp only [read]
  | closed read handled => simp only [read, handled]
  | thrown read handled => simp only [read, handled]

variable (environment) in
theorem consume_stops (buffer : Bytes) (session : Session) :
    ∃ last left, Reached environment session buffer last left
      ∧ Stops environment last left (consume environment buffer session) := by
  induction size : buffer.length using Nat.strongRecOn generalizing buffer session with
  | ind n ih =>
    cases read : readFrame buffer with
    | wait => exact ⟨session, buffer, .refl _ _, (Stops.wait read).consume_eq ▸ .wait read⟩
    | fail error => exact ⟨session, buffer, .refl _ _, (Stops.fail read).consume_eq ▸ .fail read⟩
    | frame next rest =>
      rcases handled : (handle environment next).perform session with ⟨_ | more, middle⟩
      · exact ⟨session, buffer, .refl _ _, (Stops.thrown read handled).consume_eq ▸ .thrown read handled⟩
      · cases more with
        | false =>
          exact ⟨session, buffer, .refl _ _, (Stops.closed read handled).consume_eq ▸ .closed read handled⟩
        | true =>
          obtain ⟨last, left, reached, stops⟩ :=
            ih rest.length (size ▸ readFrame_shorter read) rest middle rfl
          rw [consume_step read handled]
          exact ⟨last, left, .step read handled reached, stops⟩

/-- Only an unfinished header is refused as too long. -/
theorem readFrame_tooLong (h : readFrame buffer = .fail tooLong) :
    newline ∉ buffer ∧ kMaximumHeaderBytes < buffer.length := by
  have number : ∀ {token error : Bytes}, parse token = .error error → error = tooLong → False := parse_spares
  unfold readFrame at h
  split at h
  · unfold readHeader at h
    split at h
    case h_2 => cases h
    split at h
    case isFalse => cases h
    split at h
    case h_2 =>
      exact absurd (Next.fail.inj h) (by decide +kernel)
    split at h
    case h_1 read =>
      exact (number read (Next.fail.inj h)).elim
    split at h
    case isTrue => exact absurd (Next.fail.inj h) (by decide +kernel)
    unfold readLog at h
    split at h
    case isTrue => cases h
    split at h
    case h_1 read => exact (number read (Next.fail.inj h)).elim
    split at h
    case h_1 read => exact (number read (Next.fail.inj h)).elim
    case h_2 => cases h
  · split at h
    case isTrue clean long => exact ⟨clean, long⟩
    case isFalse => cases h

/-- The bytes behind the last newline. -/
def unended (bytes : Bytes) : Bytes := (bytes.reverse.takeWhile (· != newline)).reverse

theorem le_unended {taken : Bytes} (clean : newline ∉ left) : left.length ≤ (unended (taken ++ left)).length := by
  have all : ∀ byte ∈ left.reverse, (byte != newline) = true := fun byte member =>
    bne_iff_ne.mpr fun same => clean (same ▸ List.mem_reverse.mp member)
  rw [unended, List.length_reverse, List.reverse_append, List.takeWhile_append_of_pos all, List.length_append,
    List.length_reverse]
  exact Nat.le_add_right _ _

variable (environment) in
/-- What the session comes to when the bytes arrive at once. -/
def outcome (bytes : Bytes) (session : Session) : Session × Verdict :=
  ((consume environment bytes session).session, (consume environment bytes session).verdict)

variable (environment) in
/-- However the bytes arrive, the session ends the same way. -/
def SplitFree (bytes : Bytes) (session : Session) : Prop :=
  ∀ first second : List Bytes, first.flatten = bytes → second.flatten = bytes →
    reads environment [] session first = reads environment [] session second

variable (environment) in
/-- No header longer than the limit is reached. -/
def HeadersFit (bytes : Bytes) (session : Session) : Prop :=
  ∀ last left, Reached environment session bytes last left → ¬ LongHeader left

/-- Bytes that fit a header have no longer one in them. -/
theorem headersFit_short {bytes : Bytes} (short : bytes.length ≤ kMaximumHeaderBytes) :
    HeadersFit environment bytes session := by
  intro last left reached long
  obtain ⟨taken, rfl, _⟩ := reached.taken
  have within := (List.takeWhile_prefix (· != newline) (l := left)).length_le
  have size := long.2
  rw [List.length_append] at short
  omega

theorem HeadersFit.reached {rest : Bytes} (h : HeadersFit environment (buffer ++ rest) session)
    (path : Reached environment session buffer last left) :
    HeadersFit environment (left ++ rest) last :=
  fun t d further => h t d ((path.append rest).trans further)

/-- Consuming the front of the bytes first comes to the same. -/
theorem consume_append {rest : Bytes} (fits : HeadersFit environment (buffer ++ rest) session) :
    ((consume environment buffer session).verdict = .accepted →
      readFrame (consume environment buffer session).buffer = .wait
        ∧ Reached environment session buffer (consume environment buffer session).session
          (consume environment buffer session).buffer)
    ∧ ((consume environment buffer session).verdict ≠ .accepted →
      outcome environment (buffer ++ rest) session
        = ((consume environment buffer session).session,
          (consume environment buffer session).verdict)) := by
  obtain ⟨last, left, reached, stops⟩ := consume_stops environment buffer session
  have whole := consume_reached (reached.append rest)
  generalize consume environment buffer session = consumed at stops
  cases stops with
  | wait read => exact ⟨fun _ => ⟨read, reached⟩, fun other => absurd rfl other⟩
  | fail read =>
    refine ⟨fun accepted => (nomatch accepted), fun _ => ?_⟩
    by_cases present : newline ∈ left
    · rw [outcome, whole, (Stops.fail (readFrame_fail read present rest)).consume_eq]
    · rw [readFrame_unfinished present] at read
      split at read
      case isFalse => cases read
      rename_i long
      simp only [Next.fail.injEq] at read
      subst read
      by_cases later : newline ∈ left ++ rest
      · refine absurd ⟨later, ?_⟩ (fits last (left ++ rest) (reached.append rest))
        have all : ∀ byte ∈ left, (byte != newline) = true := fun byte member =>
          bne_iff_ne.mpr fun same => present (same ▸ member)
        rw [List.takeWhile_append_of_pos all, List.length_append]
        omega
      · have still : readFrame (left ++ rest) = .fail tooLong := by
          rw [readFrame_unfinished later, if_pos (by rw [List.length_append]; omega)]
        rw [outcome, whole, (Stops.fail still).consume_eq]
  | closed read handled =>
    refine ⟨fun accepted => (nomatch accepted), fun _ => ?_⟩
    obtain ⟨taken, _, rfl, every⟩ := readFrame_frame read
    rw [List.append_assoc] at whole
    rw [outcome, whole, (Stops.closed (every _) handled).consume_eq]
  | thrown read handled =>
    refine ⟨fun accepted => (nomatch accepted), fun _ => ?_⟩
    obtain ⟨taken, _, rfl, every⟩ := readFrame_frame read
    rw [List.append_assoc] at whole
    rw [outcome, whole, (Stops.thrown (every _) handled).consume_eq]

/-- The reads of a stream come to what its bytes come to at once. -/
theorem reads_outcome {chunks : List Bytes} (settled : readFrame buffer = .wait)
    (fits : HeadersFit environment (buffer ++ chunks.flatten) session) :
    reads environment buffer session chunks = outcome environment (buffer ++ chunks.flatten) session := by
  induction chunks generalizing buffer session with
  | nil =>
    rw [List.flatten_nil, List.append_nil, outcome, (Stops.wait settled).consume_eq]
    rfl
  | cons chunk chunks ih =>
    rw [List.flatten_cons, ← List.append_assoc] at fits ⊢
    obtain ⟨goesOn, stops⟩ := consume_append fits
    unfold reads
    by_cases accepted : (consume environment (buffer ++ chunk) session).verdict = .accepted
    · obtain ⟨waits, reached⟩ := goesOn accepted
      rw [outcome, consume_reached (reached.append chunks.flatten)]
      simp only [accepted]
      exact ih waits (fits.reached reached)
    · rw [stops accepted]
      cases verdict : (consume environment (buffer ++ chunk) session).verdict with
      | accepted => exact absurd verdict accepted
      | closed => simp only [verdict]
      | refused error => simp only [verdict]

/-- A long header whose end has not arrived is refused. -/
theorem long_header_refused {bytes : Bytes} (reached : Reached environment session bytes last left)
    (long : LongHeader left) :
    ∃ front back, front ++ back = bytes
      ∧ reads environment [] session [front, back] = (last, .refused tooLong) := by
  obtain ⟨taken, rfl, every⟩ := reached.taken
  obtain ⟨line, after, rfl, clean⟩ := first_line long.1
  have size := long.2
  rw [(takeWhile_first clean).1] at size
  refine ⟨taken ++ line, newline :: after, by simp, ?_⟩
  have refused : readFrame line = .fail tooLong := by rw [readFrame_unfinished clean, if_pos size]
  have front : consume environment (taken ++ line) session
      = { session := last, buffer := line, verdict := .refused tooLong } := by
    rw [consume_reached (every line), (Stops.fail refused).consume_eq]
  simp only [reads, List.nil_append, front]

theorem split_free_of_fits {bytes : Bytes} (fits : HeadersFit environment bytes session) :
    SplitFree environment bytes session := by
  intro first second joined others
  have settled : readFrame [] = .wait := rfl
  rw [reads_outcome settled (by simpa [joined] using fits),
    reads_outcome settled (by simpa [others] using fits), joined, others]

/-- At once, the bytes are refused for their length only if they end in an unfinished header. -/
theorem outcome_refused {bytes : Bytes} (quiet : ∀ question, environment.refreshed question ≠ .error tooLong)
    (refused : outcome environment bytes session = (last, .refused tooLong)) :
    kMaximumHeaderBytes < (unended bytes).length := by
  obtain ⟨t, d, reached, stops⟩ := consume_stops environment bytes session
  have verdict : (consume environment bytes session).verdict = .refused tooLong := congrArg Prod.snd refused
  generalize consume environment bytes session = consumed at stops verdict
  cases stops with
  | wait => cases verdict
  | closed => cases verdict
  | thrown read handled =>
    cases verdict
    exact absurd handled (handle_spares quiet _ _ _)
  | fail read =>
    cases verdict
    obtain ⟨clean, long⟩ := readFrame_tooLong read
    obtain ⟨taken, rfl, _⟩ := reached.taken
    exact Nat.lt_of_lt_of_le long (le_unended clean)

/-- The arrival of the bytes makes no difference when no long header is reached, and only then where
the bytes do not end in an unfinished one and no refresh fails with the text of its refusal. -/
theorem split_free_iff (bytes : Bytes) (session : Session) :
    (HeadersFit environment bytes session → SplitFree environment bytes session)
    ∧ ((unended bytes).length ≤ kMaximumHeaderBytes →
      (∀ question, environment.refreshed question ≠ .error tooLong) →
      (SplitFree environment bytes session ↔ HeadersFit environment bytes session)) := by
  refine ⟨split_free_of_fits, fun ended quiet => ⟨fun free last left reached long => ?_, split_free_of_fits⟩⟩
  obtain ⟨front, back, whole, refused⟩ := long_header_refused reached long
  have same := free [bytes] [front, back] (by simp) (by simpa using whole)
  rw [refused] at same
  have at_once : outcome environment bytes session = (last, .refused tooLong) := by
    rw [← same, outcome]
    simp only [reads, List.nil_append]
    split
    · rename_i accepted
      rw [accepted]
    · rfl
  exact absurd (outcome_refused quiet at_once) (Nat.not_lt.mpr ended)

def quietJob : CiJobRequest :=
  { job_id := ascii "1", project_name := ascii "p", ref := ascii "refs/heads/main", commit_id := ascii "c",
    client_id := ascii "c" }

def quietEnvironment : Environment :=
  { now := fun _ => 0, renewed := fun _ => true, refreshed := fun _ => .ok (), max_log := 1024,
    job := quietJob }

def quietSession : Session :=
  { record := { run_id := ascii "1", project_name := ascii "p", ref := ascii "refs/heads/main",
                commit_id := ascii "c" },
    stored := none, logs := fun _ => none, replies := [], last_write := 0, last_parent_refresh := 0,
    last_seen_note := 0, questions := 0 }

/-- A step with a log chunk, in one read or in two. -/
def startedStep : Bytes := ascii "step-start 0 -\nlog 0 0 3\nabc"

def openSession : Session :=
  { quietSession with record := { quietSession.record with commit_id := List.replicate 40 'a'.toUInt8 } }

theorem split_free_started : SplitFree quietEnvironment startedStep openSession
    ∧ (reads quietEnvironment [] openSession [startedStep.take 20, startedStep.drop 20]).1.logs 0
      = some (ascii "abc") := by
  have quiet : ∀ question, quietEnvironment.refreshed question ≠ .error tooLong := by
    intro question failed
    cases failed
  have free : SplitFree quietEnvironment startedStep openSession :=
    ((split_free_iff startedStep openSession).2 (by decide +kernel) quiet).mpr
      (headersFit_short (by decide +kernel))
  refine ⟨free, ?_⟩
  rw [free [startedStep.take 20, startedStep.drop 20] [startedStep] (by decide +kernel) (by decide +kernel)]
  decide +kernel

/-- The start of step 1, before step 0, with leading zeros: a frame without effect. -/
def paddedHeader : Bytes := ascii "step-start " ++ List.replicate 5000 '0'.toUInt8 ++ ascii "1 -"

/-- The padded header is taken at once and refused in two reads. -/
theorem not_split_free_padded :
    ¬ SplitFree quietEnvironment (paddedHeader ++ [newline]) quietSession := by
  intro free
  have same := free [paddedHeader ++ [newline]] [paddedHeader, [newline]] (by simp) (by simp)
  have whole : (reads quietEnvironment [] quietSession [paddedHeader ++ [newline]]).2 = .accepted := by
    decide +kernel
  have split : (reads quietEnvironment [] quietSession [paddedHeader, [newline]]).2
      = .refused tooLong := by
    decide +kernel
  rw [same, split] at whole
  cases whole

end CkGit.Stream
