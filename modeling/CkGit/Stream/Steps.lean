import CkGit.Base.Inevitable
import CkGit.Stream.Session

/-!
The step list of a run as the main host's stream sessions build it. However
often RemoteCiSink (src/common/ci_remote.cpp) connects again and sends its step
frames again, and whatever abandoned sessions still consume, the list is a
prefix of the runner's own. A session that opens reads the record as it was
last written.
-/
namespace CkGit.Stream
open CkGit.Base CkGit.Ci

theorem perform_bind {α β : Type} (action : StreamM α) (next : α → StreamM β) (session : Session) :
    (action >>= next).perform session = match action.perform session with
      | (.ok a, middle) => (next a).perform middle
      | (.error error, middle) => (.error error, middle) := by
  show StateT.run (ExceptT.run (action >>= next)) session = _
  simp only [ExceptT.run_bind, StateT.run_bind]
  rcases shape : action.perform session with ⟨_ | a, middle⟩
  all_goals
    have run : StateT.run (ExceptT.run action) session = _ := shape
    rw [run]
    rfl

/-- The action keeps the invariant, whether it returns or throws. -/
def Keeps {α : Type} (invariant : Session → Prop) (action : StreamM α) : Prop :=
  ∀ session, invariant session → invariant (action.perform session).2

section
variable {α β : Type} {invariant : Session → Prop}

theorem Keeps.pure (a : α) : Keeps invariant (pure a : StreamM α) := fun _ held => held

theorem Keeps.throw (error : Bytes) : Keeps invariant (throw error : StreamM α) := fun _ held => held

theorem Keeps.modify {change : Session → Session}
    (kept : ∀ session, invariant session → invariant (change session)) :
    Keeps invariant (modify change : StreamM Unit) := fun session held => kept session held

theorem Keeps.bind {action : StreamM α} {next : α → StreamM β} (first : Keeps invariant action)
    (later : ∀ a, Keeps invariant (next a)) : Keeps invariant (action >>= next) := by
  intro session held
  have middle := first session held
  rw [perform_bind]
  generalize action.perform session = result at *
  obtain ⟨_ | a, after⟩ := result
  · exact middle
  · exact later a after middle

/-- The state read is the current one. -/
theorem Keeps.get {next : Session → StreamM β}
    (later : ∀ session, invariant session → invariant ((next session).perform session).2) :
    Keeps invariant (get >>= next) := fun session held => later session held

theorem Keeps.ite {condition : Prop} [Decidable condition] {first second : StreamM α}
    (holds : condition → Keeps invariant first) (fails : ¬ condition → Keeps invariant second) :
    Keeps invariant (if condition then first else second) := by
  split
  · exact holds ‹_›
  · exact fails ‹_›

end

/-- The session's steps, and those it last wrote, are a prefix of the run's. -/
def Built (steps : List CiStepResult) (session : Session) : Prop :=
  session.record.steps <+: steps ∧ ∀ record, session.stored = some record → record.steps <+: steps

variable (environment : Environment) {steps : List CiStepResult}

theorem nowEpoch_keeps : Keeps (Built steps) (nowEpoch environment) :=
  .get fun _ held => held

theorem refreshed_keeps : Keeps (Built steps) (refreshed environment) := by
  apply Keeps.get
  intro session held
  rw [perform_bind]
  cases environment.refreshed session.questions <;> exact held

theorem reply_keeps (text : Bytes) : Keeps (Built steps) (reply text) := .modify fun _ held => held

theorem changeRecord_keeps {change : CiRunRecord → CiRunRecord}
    (same : ∀ record, (change record).steps = record.steps) :
    Keeps (Built steps) (changeRecord change) :=
  .modify fun session held => ⟨by rw [same]; exact held.1, held.2⟩

theorem orThrow_keeps {α : Type} (value : Except Bytes α) : Keeps (Built steps) (orThrow value) := by
  cases value
  · exact .throw _
  · exact .pure _

theorem storeRecord_keeps : Keeps (Built steps) storeRecord := by
  apply Keeps.get
  intro session held
  cases runRecordText session.record with
  | ok text => exact ⟨held.1, fun record same => by cases same; exact held.1⟩
  | error error => exact held

theorem write_keeps (force : Bool) : Keeps (Built steps) (write environment force) := by
  refine Keeps.bind (nowEpoch_keeps environment) fun now => ?_
  apply Keeps.get
  intro session held
  refine Keeps.ite (fun _ => .pure ()) (fun _ => ?_) session held
  refine Keeps.bind ?_ fun _ => Keeps.bind ?_ fun _ => Keeps.bind storeRecord_keeps fun _ => ?_
  · exact .modify fun _ held => held
  · exact changeRecord_keeps fun _ => rfl
  · refine Keeps.ite (fun _ => ?_) (fun _ => .pure ())
    refine Keeps.bind (refreshed_keeps environment) fun _ => ?_
    exact .modify fun _ held => held

/-- A change of the record that is written at once. -/
theorem recorded_keeps {change : CiRunRecord → CiRunRecord}
    (same : ∀ record, (change record).steps = record.steps) :
    Keeps (Built steps) (changeRecord change >>= fun _ => write environment true) :=
  Keeps.bind (changeRecord_keeps same) fun _ => write_keeps environment true

theorem appendLog_keeps (index offset : Nat) (bytes : Bytes) :
    Keeps (Built steps) (appendLog environment index offset bytes) := by
  apply Keeps.get
  intro session held
  refine Keeps.ite (fun _ => .throw _) (fun _ => Keeps.ite (fun _ => ?_) fun _ => ?_) session held
  · exact .modify fun _ held => held
  · exact fun _ _ => held

theorem started_keeps (time : Bytes) : Keeps (Built steps) (started environment time) := by
  refine Keeps.bind ?_ fun _ => Keeps.bind (orThrow_keeps _) fun number => ?_
  · exact changeRecord_keeps fun _ => rfl
  · dsimp only
    refine Keeps.ite (fun _ => Keeps.bind (.pure _) fun _ => ?_) fun _ =>
      Keeps.bind (nowEpoch_keeps environment) fun _ => ?_
    · exact recorded_keeps environment fun _ => rfl
    · exact recorded_keeps environment fun _ => rfl

theorem execution_keeps (report : Bytes) : Keeps (Built steps) (execution environment report) := by
  refine Keeps.ite (fun _ => ?_) fun _ => Keeps.bind (orThrow_keeps _) fun parsed => ?_
  · exact recorded_keeps environment fun _ => rfl
  · exact recorded_keeps environment fun _ => rfl

theorem stepStart_keeps (index : Bytes) : Keeps (Built steps) (stepStart environment index) := by
  refine Keeps.bind (orThrow_keeps _) fun number => ?_
  apply Keeps.get
  intro session held
  split
  · have rest : Keeps (Built steps) (changeRecord (fun record => { record with status := .running })
        >>= fun _ => write environment true) := recorded_keeps environment fun _ => rfl
    exact rest { session with
      logs := Function.update session.logs number (some ((session.logs number).getD [])) } held
  · exact held

theorem heartbeat_keeps : Keeps (Built steps) (heartbeat environment) := by
  have noted : Keeps (Built steps) (nowEpoch environment >>= fun now => get >>= fun session =>
      if 60 ≤ now - session.last_seen_note then do
        set { session with last_seen_note := now }
        refreshed environment
        return true
      else return true) := by
    refine Keeps.bind (nowEpoch_keeps environment) fun now => ?_
    apply Keeps.get
    intro session held
    split
    · have rest : Keeps (Built steps) (refreshed environment >>= fun _ => Pure.pure true) :=
        Keeps.bind (refreshed_keeps environment) fun _ => .pure true
      exact rest { session with last_seen_note := now } held
    · exact held
  apply Keeps.get
  intro session held
  have answer : Keeps (Built steps) (if (!environment.renewed session.questions) = true then do
        reply (ascii "lease-lost")
        return false
      else write environment false >>= fun _ => nowEpoch environment >>= fun now => get >>= fun session =>
        if 60 ≤ now - session.last_seen_note then do
          set { session with last_seen_note := now }
          refreshed environment
          return true
        else return true) := by
    refine Keeps.ite (fun _ => ?_) fun _ => ?_
    · exact Keeps.bind (reply_keeps _) fun _ => .pure false
    · exact Keeps.bind (write_keeps environment false) fun _ => noted
  exact answer { session with questions := session.questions + 1 } held

theorem progress_keeps (detail : Bytes) : Keeps (Built steps) (progress environment detail) := by
  unfold progress
  cases fromHexOrDash detail kMaximumCiDetailBytes with
  | none => exact .throw _
  | some detail => exact recorded_keeps environment fun _ => rfl

/-- No frame but a step's end adds a step. -/
theorem frame_keeps {tokens : List Bytes} (other : tokens.headD [] ≠ ascii "step-end") :
    Keeps (Built steps) (frame environment tokens) := by
  have unknown : ∀ error, Keeps (Built steps) (throw error : StreamM Bool) := fun error => .throw error
  unfold frame
  split
  · exact Keeps.ite (fun _ => heartbeat_keeps environment) fun _ => unknown _
  · rename_i value _
    refine Keeps.ite (fun _ => ?_) fun _ => Keeps.ite (fun _ => ?_) fun _ => Keeps.ite (fun _ => ?_)
      fun _ => unknown _
    · exact Keeps.bind (started_keeps environment value) fun _ => .pure true
    · exact Keeps.bind (execution_keeps environment value) fun _ => .pure true
    · exact Keeps.bind (progress_keeps environment value) fun _ => .pure true
  · rename_i index _ _
    refine Keeps.ite (fun _ => ?_) fun _ => unknown _
    exact Keeps.bind (stepStart_keeps environment index) fun _ => .pure true
  · exact Keeps.ite (fun same => absurd same other) fun _ => unknown _
  · exact unknown _

theorem parse_decimal {n : Nat} (small : n ≤ 2 ^ 64 - 1) : parse (decimal n) = .ok n := by
  rw [parse, parseDecimal_decimal small]

/-- The frame's exit code is read back, whatever it is. -/
theorem parseExit_decimal (code : Int32) : parseExit (decimalInt code.toInt) = .ok code := by
  have low := Int32.le_toInt code
  have high := Int32.toInt_lt code
  have back := Int32.ofInt_toInt code
  generalize code.toInt = value at *
  cases value with
  | ofNat n =>
    have same : Int32.ofNat n = code := back
    have below : (n : Int) < 2 ^ 31 := high
    have sign := decimal_head n
    have read := parse_decimal (show n ≤ 2 ^ 64 - 1 by omega)
    obtain ⟨byte, rest, shape⟩ := List.exists_cons_of_ne_nil (decimal_ne_nil n)
    rw [shape, List.head?_cons, ne_eq, Option.some.injEq] at sign
    rw [decimalInt, shape, parseExit, if_neg sign, ← shape, read, ← same]
    rfl
  | negSucc n =>
    have same : -Int32.ofNat (n + 1) = code := by
      rw [← back]
      exact (Int32.ofInt_neg ((n + 1 : Nat) : Int)).symm
    have read := parse_decimal (show n + 1 ≤ 2 ^ 64 - 1 by omega)
    rw [decimalInt, parseExit, if_pos rfl, read, ← same]
    rfl

/-- The tokens of the step-end frame of a step. -/
def stepEndTokens (index : Nat) (step : CiStepResult) : List Bytes :=
  [ascii "step-end", decimal index, decimalInt step.exit_code.toInt, flag step.timed_out,
    flag step.output_truncated, hexOrDash step.name]

theorem parse_decimal_same {n m : Nat} (h : parse (decimal n) = .ok m) : m = n := by
  unfold parse parseDecimal at h
  split at h
  · rename_i value found
    split at found
    · rw [digitsValue_decimal, Option.some.injEq] at found
      rw [found]
      exact (Except.ok.inj h).symm
    · cases found
  · cases h

theorem orThrow_known {α β : Type} {invariant : Session → Prop} {value : Except Bytes α}
    {next : α → StreamM β} (later : ∀ a, value = .ok a → Keeps invariant (next a)) :
    Keeps invariant (orThrow value >>= next) := by
  cases value with
  | error error => exact fun _ held => held
  | ok a =>
    intro session held
    rw [perform_bind]
    exact later a rfl session held

/-- The list grows by the run's next step. -/
theorem prefix_next {built : List CiStepResult} {step : CiStepResult} (held : built <+: steps)
    (own : steps[built.length]? = some step) : built ++ [step] <+: steps := by
  obtain ⟨rest, rfl⟩ := held
  rw [List.getElem?_append_right (le_refl _), Nat.sub_self] at own
  cases rest with
  | nil => cases own
  | cons first rest =>
    cases own
    exact ⟨rest, by simp⟩

theorem stepEnd_keeps {index : Nat} {step : CiStepResult} (own : steps[index]? = some step) :
    Keeps (Built steps) (frame environment (stepEndTokens index step)) := by
  have shape : frame environment (stepEndTokens index step)
      = (stepEnd environment (decimal index) (decimalInt step.exit_code.toInt) (flag step.timed_out)
          (flag step.output_truncated) (hexOrDash step.name) >>= fun _ => Pure.pure true) := by
    simp [frame, stepEndTokens]
  rw [shape]
  refine Keeps.bind (orThrow_known fun number read => ?_) fun _ => .pure true
  obtain rfl := parse_decimal_same read
  apply Keeps.get
  intro session held
  split
  case isFalse => exact held
  rename_i next
  obtain ⟨here, _⟩ := next
  subst here
  rw [parseExit_decimal]
  cases name : fromHexOrDash (hexOrDash step.name) kMaximumHexTextBytes with
  | none => exact held
  | some text =>
    obtain ⟨rfl, _⟩ := fromHexOrDash_hexOrDash.mp name
    have grown := prefix_next held.1 own
    have kept := write_keeps environment true
      { session with record := { session.record with steps := session.record.steps ++ [step] } }
      ⟨grown, held.2⟩
    have timed := flag_flag step.timed_out
    have truncated := flag_flag step.output_truncated
    simp only [timed, truncated]
    exact kept

/-- A frame RemoteCiSink sends for a run with these steps. -/
inductive SinkFrame (steps : List CiStepResult) : StreamFrame → Prop where
  | log (index offset : Nat) (bytes : Bytes) : SinkFrame steps (.log index offset bytes)
  | stepEnd {index : Nat} {step : CiStepResult} (own : steps[index]? = some step) :
      SinkFrame steps (.line (stepEndTokens index step))
  | other {tokens : List Bytes} (kind : tokens.headD [] ≠ ascii "step-end") :
      SinkFrame steps (.line tokens)

theorem handle_keeps {next : StreamFrame} (sent : SinkFrame steps next) :
    Keeps (Built steps) (handle environment next) := by
  cases sent with
  | log index offset bytes => exact Keeps.bind (appendLog_keeps environment index offset bytes) fun _ => .pure true
  | stepEnd own => exact stepEnd_keeps environment own
  | other kind => exact frame_keeps environment kind

/-- run.ini, and the sessions of one job that are still consuming. -/
structure Host where
  disk : Option CiRunRecord
  sessions : List Session

/-- The steps of the host: a session opens, or one of them takes a frame of the runner. The logs
and the counters of a session are free. -/
inductive HostStep (steps : List CiStepResult) : Host → Host → Prop where
  | opens {host : Host} {session : Session} (fresh : session.stored = none)
      (loaded : (∃ record, host.disk = some record ∧ session.record.steps = record.steps)
        ∨ (host.disk = none ∧ session.record.steps = [])) :
      HostStep steps host { host with sessions := session :: host.sessions }
  | takes {host : Host} {earlier later : List Session} {session after : Session} {next : StreamFrame}
      (environment : Environment) (sent : SinkFrame steps next)
      (which : host.sessions = earlier ++ session :: later)
      (handled : ((handle environment next).perform { session with stored := none }).2 = after) :
      HostStep steps host { disk := after.stored.or host.disk, sessions := earlier ++ after :: later }
  | ends {host : Host} {earlier later : List Session} {session : Session}
      (which : host.sessions = earlier ++ session :: later) :
      HostStep steps host { host with sessions := earlier ++ later }

/-- The host before the first stream of the attempt. -/
def Fresh (host : Host) : Prop :=
  host.sessions = [] ∧ ∀ record, host.disk = some record → record.steps = []

/-- Every list of steps the host has is a prefix of the run's. -/
def HoldsPrefix (steps : List CiStepResult) (host : Host) : Prop :=
  (∀ record, host.disk = some record → record.steps <+: steps)
    ∧ ∀ session ∈ host.sessions, session.record.steps <+: steps

theorem HostStep.keeps {host next : Host} (h : HostStep steps host next)
    (held : HoldsPrefix steps host) : HoldsPrefix steps next := by
  obtain ⟨disk, sessions⟩ := held
  cases h with
  | opens fresh loaded =>
    refine ⟨disk, fun session member => ?_⟩
    rcases List.mem_cons.mp member with rfl | old
    · rcases loaded with ⟨record, found, same⟩ | ⟨_, none⟩
      · rw [same]
        exact disk record found
      · rw [none]
        exact List.nil_prefix
    · exact sessions session old
  | @takes earlier later session _ next environment sent which handled =>
    have own := sessions session (by rw [which]; simp)
    have start : Built steps { session with stored := none } := ⟨own, fun _ none => by cases none⟩
    have after := handle_keeps environment sent _ start
    rw [handled] at after
    refine ⟨fun record found => ?_, fun other member => ?_⟩
    · rcases Option.or_eq_some_iff.mp found with written | ⟨_, old⟩
      · exact after.2 record written
      · exact disk record old
    · rcases List.mem_append.mp member with old | rest
      · exact sessions other (by rw [which]; simp [old])
      · rcases List.mem_cons.mp rest with rfl | old
        · exact after.1
        · exact sessions other (by rw [which]; simp [old])
  | ends which =>
    refine ⟨disk, fun other member => sessions other ?_⟩
    rw [which]
    rcases List.mem_append.mp member with old | old <;> simp [old]

/-- Whatever is sent again, the host's steps are a prefix of the run's. -/
theorem holdsPrefix_reachable {host last : Host} (fresh : Fresh host)
    (run : Relation.ReflTransGen (HostStep steps) host last) : HoldsPrefix steps last := by
  refine path_preserves (fun _ _ held step => step.keeps held) run ⟨?_, ?_⟩
  · intro record found
    rw [fresh.2 record found]
    exact List.nil_prefix
  · rw [fresh.1]
    simp

end CkGit.Stream
