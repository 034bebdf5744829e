import CkGit.Index.Lossless

/-!
Interleavings of refreshes, rebuilds, sweeps and erases keep the invariant, so
no run that meets the condition loses an update of the project.
-/
namespace CkGit.Index
open CkGit.Base CkGit.Ci

section
variable {name : Bytes} {watch : Watch} {role : Role} {host : Host} {index : Nat} {fails : Bool}

theorem observe_order {β : Type} (op : IndexOp β) :
    (observe name fails op watch).2.state.urgent_order = (act fails op watch.state).2.urgent_order := by
  rw [observe_state]

def Erases {β : Type} (name : Bytes) (op : IndexOp β) : Prop :=
  match op with
  | .erase other => other = name
  | _ => False

theorem mem_refresh {state : State} {other asked : Bytes} {present : Bool}
    (member : asked ∈ state.urgent_order) : asked ∈ (state.refresh other present).urgent_order := by
  unfold State.refresh
  simp only [State.known_urgent]
  split
  · simpa using member
  · simp [member]

/-- A thread with the project in hand goes on to rebuild it. -/
theorem follows_inHand {process : Process IndexOp Role} (taken : process.note.taken = true)
    (follows : (roles name).Follows process.rest process.note fun _ after => after.taken = false) :
    InHand name process := by
  obtain ⟨role, rest⟩ := process
  cases rest with
  | done => exact absurd ((show role.taken = false from follows).symm.trans taken) nofun
  | call op next => exact ⟨taken, _, op, next, rfl, follows.1.1 taken⟩

/-- The queue after an operation that takes from it. -/
theorem taking {state after : State} {first : Option Bytes} (h : Queued state)
    (taken : state.takeUrgent = (first, after)) (member : name ∈ state.urgent_order) :
    first = some name ∨ name ∈ after.urgent_order := by
  have front := h.takeUrgent.2.2 name member
  rw [taken] at front
  exact front

/-- A project in hand stays in hand until it is rebuilt. -/
theorem served_in_hand {β : Type} {op : IndexOp β} (inv : WatchInv name watch) (hand : role.taken = true)
    (next : Leads name op) (owed : (observe name fails op watch).2.owed = true) :
    ((roles name).after role op (observe name fails op watch).1).taken = true := by
  cases op with
  | lockWork => exact hand
  | present other =>
    obtain rfl : other = name := next
    simp only [roles, observe, perform, act, inv.present, decide_true, Bool.true_eq_false, and_false, if_false]
    exact hand
  | start other =>
    obtain rfl : other = name := next
    have cleared : (observe other fails (.start other) watch).2.owed = false := by
      simp only [observe, Watch.mark, if_true]
    rw [cleared] at owed
    cases owed
  | _ => exact next.elim

/-- A queued project stays queued or is taken in hand. -/
theorem served_queued {β : Type} {op : IndexOp β} (inv : WatchInv name watch)
    (settled : Erases name op → watch.owed = false) (queued : name ∈ watch.state.urgent_order)
    (owed : (observe name fails op watch).2.owed = true) :
    name ∈ (act fails op watch.state).2.urgent_order
      ∨ ((roles name).after role op (observe name fails op watch).1).taken = true := by
  cases op with
  | refresh other present => exact .inl (mem_refresh queued)
  | refreshMetadata other present updated =>
    refine .inl ?_
    rw [show (act fails (.refreshMetadata other present updated) watch.state).2.urgent_order
      = watch.state.urgent_order from (State.refreshMetadata_queue updated).2]
    exact queued
  | erase other =>
    have different : name ≠ other := by
      intro same
      rw [show (observe name fails (.erase other) watch).2.owed = watch.owed by
        simp only [observe, Watch.mark]; split <;> rfl, settled same.symm] at owed
      cases owed
    exact .inl (List.mem_filter.mpr ⟨queued, by simpa using different⟩)
  | reconcile names =>
    refine .inl ?_
    show name ∈ (watch.state.reconcile names).urgent_order
    unfold State.reconcile
    rw [foldl_known_queue names |>.2]
    exact queued
  | takeUrgent honor_stop =>
    simp only [roles, observe, perform, act]
    split
    · exact .inl queued
    · rcases taking inv.queued rfl queued with first | later
      · exact .inr (decide_eq_true first)
      · exact .inl later
  | await urgent_burst =>
    simp only [roles, observe, perform, act, State.await]
    split
    · exact .inl queued
    split
    · exact .inl queued
    split
    · split
      · rename_i first after found
        rcases taking inv.queued found queued with same | later
        · exact .inr (decide_eq_true (Option.some.inj same))
        · exact .inl later
      · rename_i after found
        rcases taking inv.queued found queued with same | later
        · cases same
        · exact .inl later
    · split
      · exact .inl queued
      · exact .inl queued
  | present | read | lockWork | unlockWork | inventory | sweepOrphans | stopping | unpend | start
  | fingerprint | inspect | find | publish => exact .inl queued

/-- Only a refresh makes a rebuild owed, and it queues the project. -/
theorem queued_when_owed {β : Type} {op : IndexOp β} (inv : WatchInv name watch) (before : ¬ watch.owed = true)
    (owed : (observe name fails op watch).2.owed = true) : name ∈ (act fails op watch.state).2.urgent_order := by
  cases op with
  | refresh other present =>
    by_cases mine : other = name
    · exact mine ▸ (inv.queued.refresh).2.2
    · rw [show (observe name fails (.refresh other present) watch).2.owed = watch.owed by
          simp only [observe, Watch.mark, if_neg mine]] at owed
      exact absurd owed before
  | start other =>
    have none_owed : (observe name fails (.start other) watch).2.owed = false := by
      simp only [observe, Watch.mark]
      split
      · rfl
      · simpa using before
    rw [none_owed] at owed
    cases owed
  | refreshMetadata other present updated =>
    rw [show (observe name fails (.refreshMetadata other present updated) watch).2.owed = watch.owed by
      simp only [observe, Watch.mark]; split <;> rfl] at owed
    exact absurd owed before
  | erase other =>
    rw [show (observe name fails (.erase other) watch).2.owed = watch.owed by
      simp only [observe, Watch.mark]; split <;> rfl] at owed
    exact absurd owed before
  | _ => exact absurd owed before

/-- A project owed a rebuild stays queued or in hand. -/
theorem served_next {β : Type} {op : IndexOp β} (inv : WatchInv name watch)
    (leads : role.taken = true → Leads name op)
    (settled : Erases name op → watch.owed = false)
    (owed : (observe name fails op watch).2.owed = true) :
    (watch.owed = true ∧ name ∉ watch.state.urgent_order ∧ role.taken = false)
      ∨ name ∈ (observe name fails op watch).2.state.urgent_order
      ∨ ((roles name).after role op (observe name fails op watch).1).taken = true := by
  rw [observe_order]
  by_cases hand : role.taken = true
  · exact .inr (.inr (served_in_hand inv hand (leads hand) owed))
  have idle : role.taken = false := by simpa using hand
  by_cases queued : name ∈ watch.state.urgent_order
  · exact .inr (served_queued inv settled queued owed)
  by_cases before : watch.owed = true
  · exact .inl ⟨before, queued, idle⟩
  · exact .inr (.inl (queued_when_owed inv before owed))

theorem Inv.advanced (h : Inv name host) {process : Process IndexOp Role} {after : Watch}
    {β : Type} {op : IndexOp β} {next : β → Script IndexOp Unit}
    (running : host.processes[index]? = some ⟨role, .call op next⟩)
    (inv : WatchInv name after) (others : ∀ other ∈ host.processes, ThreadInv name after other.note)
    (own : ThreadInv name after process.note)
    (follows : (roles name).Follows process.rest process.note fun _ after => after.taken = false)
    (served : after.owed = true → (host.store.owed = true ∧ name ∉ host.store.state.urgent_order
        ∧ role.taken = false) ∨ name ∈ after.state.urgent_order ∨ process.note.taken = true) :
    Inv name { store := after, processes := host.processes.set index process } := by
  have place := (List.getElem?_eq_some_iff.mp running).1
  have known : ∀ {other}, other ∈ host.processes.set index process →
      other ∈ host.processes ∨ other = process := fun member => List.mem_or_eq_of_mem_set member
  have there : process ∈ host.processes.set index process := List.mem_set place process
  refine ⟨inv, fun other member => ?_, fun other member => ?_, fun owed => ?_⟩
  · rcases known member with old | rfl
    · exact others other old
    · exact own
  · rcases known member with old | rfl
    · exact h.follows other old
    · exact follows
  · rcases served owed with ⟨before, absent, idle⟩ | queued | taken
    · obtain ⟨other, member, taken⟩ := (h.served before).resolve_left absent
      obtain ⟨at_place, found⟩ := List.mem_iff_getElem?.mp member
      refine .inr ⟨other, List.mem_iff_getElem?.mpr ⟨at_place, ?_⟩, taken⟩
      rw [List.getElem?_set_ne, found]
      rintro rfl
      obtain rfl := Option.some.inj (running.symm.trans found)
      exact absurd (idle.symm.trans taken) nofun
    · exact .inl queued
    · exact .inr ⟨process, there, taken⟩

theorem Inv.advance (h : Inv name host) (meets : Meets name host (.advance index fails)) :
    Inv name (step name host (.advance index fails)) := by
  simp only [step]
  split
  case isTrue => exact h
  case isFalse going =>
    unfold Interleaved.advance
    split
    case h_2 => exact h
    case h_1 role β op next running =>
      have member := List.mem_of_getElem? running
      obtain ⟨⟨leads, allowed⟩, continues⟩ := h.follows _ member
      have thread : ThreadInv name host.store role := h.threads _ member
      have op_meets := meets (by simpa using going) role β op next running
      have settled : Erases name op → host.store.owed = false := by
        intro erases
        cases op with
        | erase other => exact (op_meets erases).1
        | _ => exact erases.elim
      have served := @served_next name host.store role fails β op h.watch leads settled
      by_cases touches : Touches name op
      case neg =>
        have later := @observe_later name host.store fails β op touches
        exact h.advanced running (h.watch.later later (observe_queued op h.watch.queued).1)
          (fun other present => (h.threads other present).later later) (thread.next h.watch touches)
          (continues _) served
      case pos =>
        cases op with
        | refreshMetadata other present updated =>
          obtain rfl : other = name := touches
          obtain ⟨inv, threads⟩ := @refreshMetadata_step other host.store fails present updated h.watch
            (fun parts same part read value => by
              obtain ⟨held, place, found⟩ := (allowed rfl parts same).1 part read value
              exact thread.recent held place part read found)
            (fun parts same => by subst same; exact op_meets rfl) fun parts same => (allowed rfl parts same).2
          exact h.advanced running inv (fun other member => threads _ (h.threads other member))
            (threads role thread) (continues _) served
        | erase other =>
          obtain rfl : other = name := touches
          obtain ⟨inv, threads⟩ := @erase_step other host.store fails h.watch
          have idle := (op_meets rfl).2
          exact h.advanced running inv
            (fun process there => threads _ (idle process there) (h.threads process there))
            (threads role (idle _ member) thread) (continues _) served
        | publish other summary revision =>
          obtain rfl : other = name := touches
          obtain ⟨⟨time, started⟩, known⟩ := allowed rfl
          obtain ⟨inv, threads⟩ := @publish_step other host.store role fails summary revision time h.watch thread
            started known (op_meets rfl time started)
          refine h.advanced running inv (fun process there => threads _ (h.threads process there)) ?_
            (continues _) served
          have kept := threads role thread
          simp only [roles, if_true]
          exact ⟨kept.recent, by intros; contradiction, by intros; contradiction, kept.inventory⟩
        | reconcile names => exact absurd (thread.inventory names allowed) touches
        | _ => exact touches.elim

theorem Inv.begin (h : Inv name host) {script : Script IndexOp Unit}
    (follows : (roles name).Follows script {} fun _ after => after.taken = false) :
    Inv name (host.start ⟨{}, script⟩) := by
  have known : ∀ {process}, process ∈ host.processes ++ [⟨{}, script⟩] →
      process ∈ host.processes ∨ process = ⟨{}, script⟩ := fun member => by simpa using member
  refine ⟨h.watch, fun process member => ?_, fun process member => ?_, fun owed => ?_⟩
  · rcases known member with old | rfl
    · exact h.threads process old
    · exact ⟨nofun, nofun, nofun, nofun⟩
  · rcases known member with old | rfl
    · exact h.follows process old
    · exact follows
  · rcases h.served owed with queued | ⟨process, member, taken⟩
    · exact .inl queued
    · exact .inr ⟨process, List.mem_append_left _ member, taken⟩

/-- What other programs do leaves the index alone. -/
theorem Inv.change (h : Inv name host) (f : State → State)
    (same : Leaves name host.store.state (f host.store.state))
    (queue : (f host.store.state).urgent = host.store.state.urgent
      ∧ (f host.store.state).urgent_order = host.store.state.urgent_order)
    (now : host.store.state.now ≤ (f host.store.state).now) : Inv name (host.change f) := by
  have later : Later name host.store { host.store with state := f host.store.state } :=
    ⟨same, rfl, rfl, rfl, now⟩
  refine ⟨h.watch.later later (h.watch.queued.of_same queue.1 queue.2).1,
    fun process member => (h.threads process member).later later, h.follows, fun owed => ?_⟩
  rcases h.served owed with queued | hand
  · exact .inl (queue.2.symm ▸ queued)
  · exact .inr hand

theorem Inv.step {move : Move} (h : Inv name host) (meets : Meets name host move) :
    Inv name (step name host move) := by
  cases move with
  | refresh other => exact h.begin (refresh_follows rfl)
  | refreshMetadata other => exact h.begin (refreshMetadata_follows rfl)
  | erase other => exact h.begin (Protocol.follows_ask (idle_allows rfl trivial) fun _ => rfl)
  | sweep => exact h.begin (Protocol.follows_bind (Protocol.follows_mono (sweep_follows rfl) fun _ _ idle => idle))
  | worker rounds => exact h.begin (run_follows rounds 0 rfl)
  | stop =>
    exact h.change (fun state => { state with stopping := true }) ⟨.inl rfl, rfl, rfl⟩ ⟨rfl, rfl⟩
      (Nat.le_refl _)
  | write other part value =>
    exact h.change (fun state => { state with stored := Assoc.put (other, part) value state.stored })
      ⟨.inl rfl, rfl, rfl⟩ ⟨rfl, rfl⟩ (Nat.le_refl _)
  | push other refs =>
    exact h.change (fun state => { state with refs := Assoc.put other refs state.refs })
      ⟨.inl rfl, rfl, rfl⟩ ⟨rfl, rfl⟩ (Nat.le_refl _)
  | repositories names =>
    exact ⟨⟨h.watch.fresh, h.watch.shown, h.watch.recent, ⟨h.watch.queued.once, h.watch.queued.same⟩, meets, h.watch.floors, h.watch.begun⟩,
      fun process member => ⟨(h.threads process member).recent, (h.threads process member).fresh,
        (h.threads process member).started, (h.threads process member).inventory⟩, h.follows, h.served⟩
  | advance index fails => exact h.advance meets

theorem Inv.sound (h : Inv name host) : Sound name host := by
  refine ⟨h.watch.fresh, h.watch.shown, fun owed => ?_, h.watch.queued⟩
  rcases h.served owed with queued | ⟨process, member, taken⟩
  · exact .inl queued
  · exact .inr ⟨process, member, follows_inHand taken (h.follows process member)⟩

/-- Every move serves the queue in order. -/
theorem step_order {move : Move} (h : Queued host.store.state) :
    InOrder host move (step name host move).store.state.urgent_order := by
  cases move with
  | advance index fails =>
    by_cases waiting : waits host index = true
    · simp only [InOrder, Host.next, step, if_pos waiting]
    · simp only [InOrder, Host.next, step, if_neg waiting]
      unfold Interleaved.advance
      cases host.processes[index]? with
      | none => rfl
      | some process =>
        obtain ⟨role, rest⟩ := process
        cases rest with
        | done => rfl
        | call op next => exact (observe_queued op h).2
  | _ => rfl

theorem inv_run {moves : List Move} (h : Inv name host) (meets : RunMeets name host moves) :
    Inv name (runFrom name host moves) := by
  induction moves generalizing host with
  | nil => exact h
  | cons move rest ih => exact ih (h.step meets.1) meets.2

theorem RunMeets.take {moves : List Move} (meets : RunMeets name host moves) (count : Nat) :
    RunMeets name host (moves.take count) := by
  induction moves generalizing host count with
  | nil => simpa using meets
  | cons move rest ih =>
    cases count with
    | zero => trivial
    | succ count => exact ⟨meets.1, ih meets.2 count⟩

theorem runFrom_succ {moves : List Move} {count : Nat} {move : Move} (here : moves[count]? = some move) :
    runFrom name host (moves.take (count + 1)) = step name (runFrom name host (moves.take count)) move := by
  rw [List.take_add_one, here, runFrom, List.foldl_append]
  rfl

theorem inv_first {state : State} (initial : Initial name state) : Inv name (made state) := by
  refine ⟨⟨fun summary there part _ read value => ?_, nofun, fun summary there part read value => ?_,
    ⟨?_, fun other => ?_⟩, initial.present, fun _ => Nat.le_refl _, initial.begun⟩, nofun, nofun, nofun⟩
  · rw [initial.records name summary there] at value
    cases value
  · rw [initial.records name summary there] at value
    cases value
  · show state.urgent_order.Nodup
    rw [initial.idle.2]
    exact List.nodup_nil
  · show other ∈ state.urgent ↔ other ∈ state.urgent_order
    rw [initial.idle.1, initial.idle.2]

/-- A run that meets the condition loses no update of the project. -/
theorem lossless_of_meets {name : Bytes} {state : State} (initial : Initial name state) {moves : List Move}
    (meets : RunMeets name (made state) moves) : Lossless name (made state) moves := by
  intro count
  have now := inv_run (inv_first initial) (meets.take count)
  refine ⟨now.sound, fun move here => ?_⟩
  rw [runFrom_succ here]
  exact step_order now.watch.queued

end

def demo : Bytes := ascii "demo"

/-- An index of one project that was not rebuilt yet. -/
def demoState : State where
  repositories := [demo]
  refs := [(demo, ascii "main")]
  stored := []
  now := 1
  records := [(demo, placeholder)]
  metadata_revisions := []
  pending := [demo]
  urgent := []
  urgent_order := []
  working := false
  stopping := false

private theorem initial_demo : Initial demo demoState := by
  refine ⟨by decide, fun other summary there => ?_, by decide, rfl, rfl⟩
  have one : demoState.record other = if other = demo then some placeholder else none :=
    Assoc.get_singleton other demo placeholder
  rw [one] at there
  split at there
  · rw [← Option.some.inj there]
    rfl
  · cases there

/-- A push is reported and the worker takes it up; while it inspects the repository a registration is
reported. Behind both the project is erased. -/
def reportedMoves : List Move :=
  .refresh demo :: List.replicate 2 (.advance 0 false) ++ .worker 1 :: List.replicate 7 (.advance 1 false)
    ++ .refreshMetadata demo :: List.replicate 7 (.advance 2 false) ++ List.replicate 8 (.advance 1 false)
    ++ [.erase demo, .advance 3 false]

-- Before the erase the record shows what both published.
example : ((runFrom demo (made demoState) (reportedMoves.take 26)).store.state.record demo).map
    (fun summary => (summary.indexing, summary.parts .checkouts, summary.parts .ci_runs))
    = some (false, some ⟨[], 10⟩, some ⟨[], 19⟩) := by decide +kernel

/-- A refreshMetadata between the reads of a rebuild and its publish. -/
def overlapMoves : List Move :=
  .worker 1 :: List.replicate 12 (.advance 0 false) ++ .refreshMetadata demo
    :: List.replicate 7 (.advance 1 false) ++ List.replicate 2 (.advance 0 false)

theorem lossless_reported : RunMeets demo (made demoState) reportedMoves
    ∧ Lossless demo (made demoState) reportedMoves := by
  have meets : RunMeets demo (made demoState) reportedMoves := by decide +kernel
  exact ⟨meets, lossless_of_meets initial_demo meets⟩

/-- A rebuild puts back the runs it read before a refreshMetadata that was published since. -/
theorem not_lossless_overlap : ¬ ∀ state moves, Initial demo state →
    (∀ move ∈ moves, ∀ names, move = .repositories names → demo ∈ names) →
    Lossless demo (made state) moves := by
  intro all
  have kept : ∀ move ∈ overlapMoves, ∀ names, move = .repositories names → demo ∈ names := by
    intro move member names same
    subst same
    simp [overlapMoves] at member
  have sound := (all demoState overlapMoves initial_demo kept 23).1
  have shown : ((runFrom demo (made demoState) (overlapMoves.take 23)).store.state.record demo).bind
      (·.parts .ci_runs) = some ⟨[], 10⟩ := by decide +kernel
  have floor : (runFrom demo (made demoState) (overlapMoves.take 23)).store.floors .ci_runs = 15 := by
    decide +kernel
  obtain ⟨summary, there, read⟩ := Option.bind_eq_some_iff.mp shown
  have older := sound.fresh summary there .ci_runs (by decide) _ read
  rw [floor] at older
  exact absurd older (by decide)

end CkGit.Index
