import CkGit.Projects.Follow

/-!
A repository and its metadata stay together over whole runs, with a crash
between any two operations.
-/
namespace CkGit.Projects
open CkGit.Base CkGit.Ci

section
variable {name : Bytes} {role : Role} {watch : Watch} {host : Host} {index : Nat} {fails : Bool}
  {β : Type} {op : ProjectOp β}

def Role.InLifecycle (role : Role) : Prop := role.lifecycle = true
def Role.InMetadata (role : Role) : Prop := role.metadata = true

/-- The operations that take or release the lifecycle lock. -/
def LocksLifecycle {β : Type} (op : ProjectOp β) : Prop :=
  match op with
  | .lockLifecycle | .unlockLifecycle => True
  | _ => False

def LocksMetadata {β : Type} (op : ProjectOp β) : Prop :=
  match op with
  | .lockMetadata | .unlockMetadata => True
  | _ => False

theorem observe_locks (op : ProjectOp β) :
    (¬ LocksLifecycle op → (observe name fails op watch).2.store.lifecycle = watch.store.lifecycle)
      ∧ (¬ LocksMetadata op → (observe name fails op watch).2.store.metadata = watch.store.metadata) := by
  unfold observe
  rcases @perform_cases watch.store fails β op with works | ⟨reply, failed, fails⟩
  · rw [works]
    cases op with
    | lockLifecycle | unlockLifecycle => exact ⟨fun keeps => (keeps trivial).elim, fun _ => rfl⟩
    | lockMetadata | unlockMetadata => exact ⟨fun _ => rfl, fun keeps => (keeps trivial).elim⟩
    | rmdirProject other =>
      simp only [work]
      split <;> exact ⟨fun _ => rfl, fun _ => rfl⟩
    | _ => exact ⟨fun _ => rfl, fun _ => rfl⟩
  · rw [fails]
    exact ⟨fun _ => rfl, fun _ => rfl⟩

theorem after_locks (op : ProjectOp β) (reply : β) :
    (¬ LocksLifecycle op → ((roles name).after role op reply).lifecycle = role.lifecycle)
      ∧ (¬ LocksMetadata op → ((roles name).after role op reply).metadata = role.metadata) := by
  cases op with
  | lockLifecycle | unlockLifecycle => exact ⟨fun keeps => (keeps trivial).elim, fun _ => rfl⟩
  | lockMetadata | unlockMetadata => exact ⟨fun _ => rfl, fun keeps => (keeps trivial).elim⟩
  | present other | init other | rename other | rmdirProject other =>
    simp only [roles]
    split <;> exact ⟨fun _ => rfl, fun _ => rfl⟩
  | _ => exact ⟨fun _ => rfl, fun _ => rfl⟩

variable {next : β → Script ProjectOp Unit}

theorem lifecycle_step (exclusive : Exclusive Role.InLifecycle watch.store.lifecycle host.processes)
    (running : host.processes[index]? = some ⟨role, .call op next⟩)
    (allowed : (roles name).allowed role op) (free : ready op watch.store = true) :
    Exclusive Role.InLifecycle (observe name fails op watch).2.store.lifecycle
      (host.processes.set index ⟨(roles name).after role op (observe name fails op watch).1,
        next (observe name fails op watch).1⟩) := by
  by_cases keeps : LocksLifecycle op
  · cases op with
    | lockLifecycle =>
      have unlocked : watch.store.lifecycle = false := by simpa [ready] using free
      rw [unlocked] at exclusive
      cases fails <;> exact exclusive.acquire
    | unlockLifecycle => cases fails <;> exact exclusive.release running allowed Bool.false_ne_true
    | _ => exact keeps.elim
  · rw [(observe_locks op).1 keeps]
    refine exclusive.keep running fun holds => ?_
    rw [Role.InLifecycle, (after_locks op _).1 keeps] at holds
    exact holds

theorem metadata_step (exclusive : Exclusive Role.InMetadata watch.store.metadata host.processes)
    (running : host.processes[index]? = some ⟨role, .call op next⟩)
    (allowed : (roles name).allowed role op) (free : ready op watch.store = true) :
    Exclusive Role.InMetadata (observe name fails op watch).2.store.metadata
      (host.processes.set index ⟨(roles name).after role op (observe name fails op watch).1,
        next (observe name fails op watch).1⟩) := by
  by_cases keeps : LocksMetadata op
  · cases op with
    | lockMetadata =>
      have unlocked : watch.store.metadata = false := by simpa [ready] using free
      rw [unlocked] at exclusive
      cases fails <;> exact exclusive.acquire
    | unlockMetadata => cases fails <;> exact exclusive.release running allowed Bool.false_ne_true
    | _ => exact keeps.elim
  · rw [(observe_locks op).2 keeps]
    refine exclusive.keep running fun holds => ?_
    rw [Role.InMetadata, (after_locks op _).2 keeps] at holds
    exact holds

variable (name) in
structure HostInv (host : Host) : Prop where
  watch : WatchInv name host.store
  notes : ∀ process ∈ host.processes, RoleInv name host.store.store process.note
  follows : ∀ process ∈ host.processes, (roles name).Follows process.rest process.note fun _ _ => True
  lifecycle : Exclusive Role.InLifecycle host.store.store.lifecycle host.processes
  metadata : Exclusive Role.InMetadata host.store.store.metadata host.processes

theorem HostInv.begin (h : HostInv name host) {script : Script ProjectOp Unit}
    (follows : (roles name).Follows script {} fun _ _ => True) : HostInv name (host.start ⟨{}, script⟩) := by
  refine ⟨h.watch, fun process member => ?_, fun process member => ?_, h.lifecycle.start Bool.false_ne_true,
    h.metadata.start Bool.false_ne_true⟩
  · rcases List.mem_append.mp member with old | new
    · exact h.notes process old
    · obtain rfl := List.mem_singleton.mp new
      exact ⟨nofun, nofun, nofun, nofun⟩
  · rcases List.mem_append.mp member with old | new
    · exact h.follows process old
    · obtain rfl := List.mem_singleton.mp new
      exact follows

/-- The others hold no lock that the process holds. -/
theorem HostInv.apart {i : Nat} {process other : Process ProjectOp Role} (h : HostInv name host)
    (running : host.processes[index]? = some process) (there : host.processes[i]? = some other)
    (different : i ≠ index) :
    (other.note.lifecycle = true → process.note.lifecycle = false)
      ∧ (other.note.metadata = true → process.note.metadata = false) := by
  refine ⟨fun holds => ?_, fun holds => ?_⟩
  · by_contra both
    exact different (h.lifecycle.alone i index other process there running holds (Bool.eq_true_of_not_eq_false both))
  · by_contra both
    exact different (h.metadata.alone i index other process there running holds (Bool.eq_true_of_not_eq_false both))

theorem HostInv.advance (h : HostInv name host) (meets : Meets name host (.advance index fails)) :
    HostInv name (step name host (.advance index fails)) := by
  simp only [step]
  split
  case isTrue => exact h
  case isFalse going =>
    unfold Interleaved.advance
    split
    case h_2 => exact h
    case h_1 role β op next running =>
      have member := List.mem_of_getElem? running
      obtain ⟨allowed, continues⟩ := h.follows _ member
      have noted : RoleInv name host.store.store role := h.notes _ member
      have free : ready op host.store.store = true := by
        simpa [waits, running] using going
      have op_meets := meets (by simpa using going) role β op next running
      refine ⟨observe_inv h.watch noted allowed op_meets, fun process there => ?_, fun process there => ?_,
        lifecycle_step h.lifecycle running allowed free, metadata_step h.metadata running allowed free⟩
      · obtain ⟨i, found⟩ := List.mem_iff_getElem?.mp there
        rcases Exclusive.set_cases found with ⟨-, rfl⟩ | ⟨different, before⟩
        · exact observe_own noted allowed
        · obtain ⟨lifecycle, metadata⟩ := h.apart running before different
          exact observe_other noted allowed (h.notes process (List.mem_of_getElem? before)) lifecycle metadata
      · rcases List.mem_or_eq_of_mem_set there with old | rfl
        · exact h.follows process old
        · exact continues _

/-- A process that dies leaves the files as they are. -/
theorem HostInv.crash (h : HostInv name host) : HostInv name (host.crash index) := by
  unfold Host.crash
  split
  case h_2 => exact h
  case h_1 process running =>
    refine ⟨⟨h.watch.there, fun gone => ?_, fun there => ?_⟩, fun other member => ?_, fun other member => ?_, ?_, ?_⟩
    · exact ⟨(h.watch.bare gone).checkouts, (h.watch.bare gone).events⟩
    · exact ⟨(h.watch.own there).checkouts, (h.watch.own there).events⟩
    · rcases List.mem_or_eq_of_mem_set member with old | rfl
      · have noted := h.notes other old
        exact ⟨noted.found, noted.unregistered, noted.logs, noted.archived⟩
      · exact ⟨nofun, nofun, nofun, nofun⟩
    · rcases List.mem_or_eq_of_mem_set member with old | rfl
      · exact h.follows other old
      · trivial
    · exact h.lifecycle.drop running Iff.rfl Bool.false_ne_true
    · exact h.metadata.drop running Iff.rfl Bool.false_ne_true

theorem HostInv.step {move : Move} (h : HostInv name host) (meets : Meets name host move) :
    HostInv name (step name host move) := by
  cases move with
  | create other => exact h.begin createBareRepository_follows
  | remove other => exact h.begin removeProject_follows
  | sweep => exact h.begin sweep_follows
  | register => exact h.begin registerHostedCheckout_follows
  | forget => exact h.begin forgetHostedCheckout_follows
  | hostedEvent => exact h.begin appendHostedStateEvent_follows
  | gatewayEvent => exact h.begin recordEvent_follows
  | advance index fails => exact h.advance meets
  | crash index => exact h.crash

theorem HostInv.sound (h : HostInv name host) : Sound name host :=
  ⟨fun removed => h.watch.bare (.inr removed), h.watch.own⟩

/-- One move takes no metadata of a project whose repository exists, but for a forget. -/
theorem HostInv.spared {move : Move} (h : HostInv name host) (there : name ∈ host.store.store.repositories)
    (keeps : ¬ Forgets name host move) : Spared name host.store.store (Projects.step name host move).store.store := by
  cases move with
  | advance index fails =>
    simp only [Projects.step]
    split
    · exact Spared.refl _
    · unfold Interleaved.advance
      split
      case h_2 => exact Spared.refl _
      case h_1 role β op next running =>
        have member := List.mem_of_getElem? running
        exact observe_spared h.watch (h.notes _ member) (h.follows _ member).1 there
          fun forgets => keeps ⟨role, β, op, next, running, forgets⟩
  | crash index =>
    simp only [Projects.step, Host.crash]
    split
    · exact ⟨fun _ member _ => member, fun _ member _ => member⟩
    · exact Spared.refl _
  | _ => exact Spared.refl _

theorem inv_run {moves : List Move} (h : HostInv name host) (meets : RunMeets name host moves) :
    HostInv name (runFrom name host moves) := by
  induction moves generalizing host with
  | nil => exact h
  | cons move rest ih => exact ih (h.step meets.1) meets.2

theorem RunMeets.take {moves : List Move} (meets : RunMeets name host moves) (count : Nat) :
    RunMeets name host (moves.take count) := by
  induction moves generalizing host count with
  | nil => simpa using meets
  | cons move rest ih =>
    cases count with
    | zero => trivial
    | succ count => exact ⟨meets.1, ih meets.2 count⟩

theorem inv_made {store : Store} (initial : Initial name store) : HostInv name (made name store) := by
  have idle : ∀ holds : Role → Prop, Exclusive holds false (made name store).processes := fun holds =>
    { alone := fun i j first second at_first => by simp [made] at at_first
      held := nofun }
  refine ⟨⟨?_, fun gone => ?_, initial.own⟩, nofun, nofun, ?_, ?_⟩
  · simp only [made]
    split <;> simp_all
  · refine initial.bare fun there => ?_
    simp [made, there] at gone
  · exact initial.unlocked.1 ▸ idle _
  · exact initial.unlocked.2 ▸ idle _

/-- A run that meets the condition keeps the repository and its metadata together. -/
theorem together_of_meets {name : Bytes} {store : Store} (initial : Initial name store) {moves : List Move}
    (meets : RunMeets name (made name store) moves) : Together name (made name store) moves := by
  intro count
  have now := inv_run (inv_made initial) (meets.take count)
  exact ⟨now.sound, fun move _ there keeps => now.spared there keeps⟩

end

def demo : Bytes := ascii "demo"

def withProjects (repositories : List Bytes) : Store where
  repositories
  incarnations := []
  directories := []
  checkouts := []
  logs := { archives := [], live := none, files := [] }
  lifecycle := false
  metadata := false

private theorem initial_with (repositories : List Bytes) : Initial demo (withProjects repositories) :=
  ⟨⟨rfl, rfl⟩, fun _ => ⟨nofun, nofun⟩, fun _ => ⟨nofun, nofun⟩⟩

/-- The project is created, a checkout is registered and an event recorded. -/
def livedMoves : List Move :=
  .create demo :: List.replicate 5 (.advance 0 false)
    ++ .register 1 demo (ascii "laptop") false :: List.replicate 12 (.advance 1 false)
    ++ .hostedEvent 2 (ascii "push") demo (ascii "laptop") false :: List.replicate 8 (.advance 2 false)

/-- Then its removal dies behind the rename, a sweep cleans up, and it is created again, recorded
and removed. -/
def recreatedMoves : List Move :=
  livedMoves ++ .remove demo :: List.replicate 4 (.advance 3 false) ++ .crash 3
    :: .sweep :: List.replicate 14 (.advance 4 false) ++ .create demo :: List.replicate 5 (.advance 5 false)
    ++ .hostedEvent 9 (ascii "push") demo (ascii "laptop") false :: List.replicate 8 (.advance 6 false)
    ++ .remove demo :: List.replicate 16 (.advance 7 false)

/-- The project is removed, and the CI gateway records the end of one of its runs. -/
def finishedMoves : List Move :=
  .remove demo :: List.replicate 12 (.advance 0 false)
    ++ .gatewayEvent 1 (ascii "ci-finished") demo (ascii "runner") false :: List.replicate 4 (.advance 1 false)

/-- The project lives twice: the run meets the condition, and what the first life left is gone
before the second one. -/
theorem together_recreated : RunMeets demo (made demo (withProjects [])) recreatedMoves
    ∧ Together demo (made demo (withProjects [])) recreatedMoves
    ∧ ((runFrom demo (made demo (withProjects [])) livedMoves).store.store.checkouts.length = 1
      ∧ (runFrom demo (made demo (withProjects [])) livedMoves).store.store.logs.events.length = 2)
    ∧ (runFrom demo (made demo (withProjects [])) recreatedMoves).store.store.incarnation demo = 2
    ∧ (runFrom demo (made demo (withProjects [])) recreatedMoves).store.phase = .removed := by
  have meets : RunMeets demo (made demo (withProjects [])) recreatedMoves := by decide +kernel
  exact ⟨meets, together_of_meets (initial_with []) meets, by decide +kernel, by decide +kernel, by decide +kernel⟩

/-- The event of the gateway appears after the removal went through. -/
theorem not_together_finished : ¬ ∀ store moves, Initial demo store →
    Together demo (made demo store) moves := by
  intro all
  have sound := (all (withProjects [demo]) finishedMoves (initial_with [demo]) 18).1
  have shape : (runFrom demo (made demo (withProjects [demo])) (finishedMoves.take 18)).store.phase = .removed
      ∧ (runFrom demo (made demo (withProjects [demo])) (finishedMoves.take 18)).store.store.logs.events.any
        (·.project_name = demo) = true := by
    decide +kernel
  obtain ⟨removed, shown⟩ := shape
  obtain ⟨event, member, mine⟩ := List.any_eq_true.mp shown
  exact (sound.removed removed).events event member (of_decide_eq_true mine)

end CkGit.Projects
