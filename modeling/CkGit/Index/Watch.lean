import CkGit.Index.Model

/-!
No update of a project is lost, whatever refreshes, rebuilds, sweeps and erases
overlap. The code keeps this as long as a refreshMetadata is not overtaken by
one that read the store later, a rebuild that one overlaps reads the runs and
releases after it, and the project is not erased while it is queued or rebuilt.
-/
namespace CkGit.Index
open CkGit.Base CkGit.Ci

/-- The index with what happened to one project. -/
structure Watch where
  state : State
  /-- When the published refreshMetadata read each part, at the latest. -/
  floors : Part → Nat
  /-- When the last refreshMetadata was published. -/
  published : Nat
  /-- A refreshMetadata published the part since the project was last erased. -/
  shown : Part → Bool
  /-- A refresh is not followed by a rebuild yet. -/
  owed : Bool

structure Role where
  /-- The project was taken from the queue and is not rebuilt yet. -/
  taken : Bool := false
  /-- The revision and the time at the start of the rebuild of the project. -/
  started : Option (Nat × Nat) := none
  /-- What was read or found of the project since. -/
  seen : List Parts := []
  inventory : Option (List Bytes) := none

/-- Every part was among these reads. -/
def From (seen : List Parts) (parts : Parts) : Prop :=
  ∀ part read, parts part = some read → ∃ held ∈ seen, held part = some read

section
variable (name : Bytes)

/-- A project in hand is rebuilt next. -/
def Leads {β : Type} (op : IndexOp β) : Prop :=
  match op with
  | .lockWork => True
  | .present other | .start other => other = name
  | _ => False

/-- What the threads ask for: they publish what they read. -/
def roles : Protocol IndexOp Role where
  allowed role op :=
    (role.taken = true → Leads name op)
      ∧ match op with
        | .publish other summary revision => other = name →
          (∃ time, role.started = some (revision, time)) ∧ From role.seen summary.parts
        | .refreshMetadata other _ updated => other = name →
          ∀ parts, updated = .ok parts → From role.seen parts
            ∧ ∀ part, part ≠ .dependency_requests → (parts part).isSome
        | .reconcile names => role.inventory = some names
        | _ => True
  after role op reply :=
    match op, reply with
    | .start other, reply =>
      if other = name then { role with taken := false, started := some reply, seen := [] } else role
    | .read other part, reply =>
      if other = name then
        { role with seen := (fun p => if p = part then reply else none) :: role.seen }
      else role
    | .find other, reply =>
      if other = name then { role with seen := (reply.elim (fun _ => none) (·.parts)) :: role.seen }
      else role
    | .publish other _ _, _ => if other = name then { role with started := none } else role
    | .inventory, reply => { role with inventory := reply }
    | .takeUrgent _, reply => { role with taken := decide (reply = some name) }
    | .await _, reply =>
      match reply with
      | .rebuild other _ => { role with taken := decide (other = name) }
      | _ => role
    | .present other, reply => if other = name ∧ reply = false then { role with taken := false } else role
    | _, _ => role

/-- The latest of the reads. -/
def later (floors : Part → Nat) (parts : Parts) : Part → Nat :=
  fun part => (parts part).elim (floors part) fun read => max (floors part) read.at_time

def floorsAfter (floors : Part → Nat) (updated : Except String Parts) : Part → Nat :=
  match updated with
  | .ok parts => later floors parts
  | .error _ => floors

def shownAfter (shown : Part → Bool) (updated : Except String Parts) : Part → Bool :=
  match updated with
  | .ok parts => fun part => shown part || (parts part).isSome
  | .error _ => shown

/-- What an operation at this time means for the project, after its effect. -/
def Watch.mark (now : Nat) {β : Type} (op : IndexOp β) (watch : Watch) : Watch :=
  match op with
  | .refresh other _ => if other = name then { watch with owed := true } else watch
  | .start other => if other = name then { watch with owed := false } else watch
  | .refreshMetadata other _ updated =>
    if other = name ∧ (watch.state.record name).isSome then
      { watch with
        published := now
        floors := floorsAfter watch.floors updated
        shown := shownAfter watch.shown updated }
    else watch
  | .erase other => if other = name then { watch with shown := fun _ => false } else watch
  | _ => watch

def observe (fails : Bool) {β : Type} (op : IndexOp β) (watch : Watch) : β × Watch :=
  let (reply, state) := perform fails op watch.state
  (reply, Watch.mark name watch.state.now op { watch with state })

abbrev Host := Interleaved IndexOp Role Watch

inductive Move where
  | refresh (name : Bytes)
  | refreshMetadata (name : Bytes)
  | erase (name : Bytes)
  | sweep
  | worker (rounds : Nat)
  | stop
  /-- Other programs change the store, the refs or the repositories. -/
  | write (name : Bytes) (part : Part) (value : Bytes)
  | push (name : Bytes) (refs : Bytes)
  | repositories (names : List Bytes)
  | advance (index : Nat) (fails : Bool)

/-- The next operation waits for the lock of the work. -/
def waits (host : Host) (index : Nat) : Bool :=
  match host.processes[index]? with
  | some ⟨_, .call op _⟩ => !ready op host.store.state
  | _ => false

def Host.change (host : Host) (f : State → State) : Host :=
  { host with store := { host.store with state := f host.store.state } }

def step (host : Host) (move : Move) : Host :=
  match move with
  | .refresh other => host.start ⟨{}, refresh other⟩
  | .refreshMetadata other => host.start ⟨{}, refreshMetadata other⟩
  | .erase other => host.start ⟨{}, .ask (.erase other)⟩
  | .sweep => host.start ⟨{}, do let _ ← sweep false⟩
  | .worker rounds => host.start ⟨{}, run rounds 0⟩
  | .stop => host.change fun state => { state with stopping := true }
  | .write other part value =>
    host.change fun state => { state with stored := Assoc.put (other, part) value state.stored }
  | .push other refs => host.change fun state => { state with refs := Assoc.put other refs state.refs }
  | .repositories names => host.change fun state => { state with repositories := names }
  | .advance index fails =>
    if waits host index then host else host.advance (roles name) (observe name fails) index

def runFrom (host : Host) (moves : List Move) : Host := moves.foldl (step name) host

/-- The queue and its set hold the same names, each once. -/
structure Queued (state : State) : Prop where
  once : state.urgent_order.Nodup
  same : ∀ other, other ∈ state.urgent ↔ other ∈ state.urgent_order

/-- The process has taken the project and rebuilds it next. -/
def InHand (process : Process IndexOp Role) : Prop :=
  process.note.taken = true ∧ ∃ (β : Type) (op : IndexOp β) (next : β → Script IndexOp Unit),
    process.rest = .call op next ∧ Leads name op

structure Sound (host : Host) : Prop where
  /-- The record shows nothing that was read before a published refreshMetadata read it. -/
  fresh : ∀ summary, host.store.state.record name = some summary → ∀ part, part ≠ .dependency_requests →
    ∀ read, summary.parts part = some read → host.store.floors part ≤ read.at_time
  /-- It shows every part that one published. -/
  shown : ∀ part, part ≠ .dependency_requests → host.store.shown part = true →
    ∃ summary, host.store.state.record name = some summary ∧ (summary.parts part).isSome
  /-- A refreshed project is queued until it is rebuilt. -/
  served : host.store.owed = true → name ∈ host.store.state.urgent_order
    ∨ ∃ process ∈ host.processes, InHand name process
  queued : Queued host.store.state

/-- The operation that a move carries out. -/
def Host.next (host : Host) (move : Move) : Option ((β : Type) × IndexOp β) :=
  match move with
  | .advance index _ =>
    if waits host index then none
    else match host.processes[index]? with
      | some ⟨_, .call op _⟩ => some ⟨_, op⟩
      | _ => none
  | _ => none

/-- A refresh adds to the end of the queue, the worker takes from its front, and an erase drops the
erased project only. -/
def FirstInFirstOut {β : Type} (op : IndexOp β) (before after : List Bytes) : Prop :=
  match op with
  | .refresh other _ => after = if other ∈ before then before else before ++ [other]
  | .takeUrgent _ | .await _ => after = before ∨ ∃ other, before = other :: after
  | .erase other => after = before.filter (· ≠ other)
  | _ => after = before

/-- The queue after a move. -/
def InOrder (host : Host) (move : Move) (after : List Bytes) : Prop :=
  match host.next move with
  | some ⟨_, op⟩ => FirstInFirstOut op host.store.state.urgent_order after
  | none => after = host.store.state.urgent_order

/-- Every state of the run is sound, and the queue is served in order. -/
def Lossless (host : Host) (moves : List Move) : Prop :=
  ∀ count, Sound name (runFrom name host (moves.take count)) ∧ ∀ move, moves[count]? = some move →
    InOrder (runFrom name host (moves.take count)) move
      (runFrom name host (moves.take (count + 1))).store.state.urgent_order

def OpMeets {β : Type} (host : Host) (role : Role) (op : IndexOp β) : Prop :=
  match op with
  -- No refreshMetadata that read the store later was published before.
  | .refreshMetadata other _ (.ok parts) => other = name → ∀ part, part ≠ .dependency_requests →
      ∀ read, parts part = some read → host.store.floors part ≤ read.at_time
  -- The runs and releases of a rebuild are not older than a refreshMetadata published meanwhile, and
  -- what one published the rebuild has read too, or takes it over.
  | .publish other summary revision => other = name →
      ∀ time, role.started = some (revision, time) → ∀ part, part ≠ .dependency_requests →
      (part = .checkouts ∨ part = .events) ∧ time ≤ host.store.published
        ∨ (time ≤ host.store.published → ∀ read, summary.parts part = some read → host.store.floors part ≤ read.at_time)
          ∧ (host.store.shown part = true → (summary.parts part).isSome)
  -- A project that is erased is neither owed a rebuild nor being rebuilt.
  | .erase other => other = name → host.store.owed = false
      ∧ ∀ process ∈ host.processes, process.note.started = none
  | _ => True

def Meets (host : Host) (move : Move) : Prop :=
  match move with
  | .advance index _ => waits host index = false → ∀ role (β : Type) (op : IndexOp β) next,
      host.processes[index]? = some ⟨role, .call op next⟩ → OpMeets name host role op
  -- The repository of the project exists throughout.
  | .repositories names => name ∈ names
  | _ => True

/-- Every move meets the condition. -/
def RunMeets (host : Host) (moves : List Move) : Prop :=
  match moves with
  | [] => True
  | move :: rest => Meets name host move ∧ RunMeets (step name host move) rest

theorem forall_part {P : Part → Prop} : (∀ part ∈ [Part.checkouts, .events, .ci_runs, .dependency_requests, .releases],
    P part) ↔ ∀ part, P part :=
  ⟨fun all part => all part (by cases part <;> decide), fun all part _ => all part⟩

instance (P : Part → Prop) [DecidablePred P] : Decidable (∀ part, P part) := decidable_of_iff _ forall_part

/-- A read no earlier than this. -/
def Since (time : Nat) (reply : Option Read) : Prop := ∀ read ∈ reply, time ≤ read.at_time

instance (time : Nat) (reply : Option Read) : Decidable (Since time reply) :=
  inferInstanceAs (Decidable (∀ read ∈ reply, time ≤ read.at_time))

/-- The condition on a publish, for a rebuild that started at this time. -/
def PublishMeets (host : Host) (summary : ProjectSummary) (time : Nat) : Prop :=
  ∀ part, part ≠ .dependency_requests → (part = .checkouts ∨ part = .events) ∧ time ≤ host.store.published
    ∨ (time ≤ host.store.published → Since (host.store.floors part) (summary.parts part))
      ∧ (host.store.shown part = true → (summary.parts part).isSome)

instance (host : Host) (summary : ProjectSummary) (time : Nat) : Decidable (PublishMeets host summary time) :=
  inferInstanceAs (Decidable (∀ part, part ≠ .dependency_requests →
    (part = .checkouts ∨ part = .events) ∧ time ≤ host.store.published
      ∨ (time ≤ host.store.published → Since (host.store.floors part) (summary.parts part))
        ∧ (host.store.shown part = true → (summary.parts part).isSome)))

instance {β : Type} (host : Host) (role : Role) (op : IndexOp β) : Decidable (OpMeets name host role op) :=
  match op with
  | .refreshMetadata other _ (.ok parts) => inferInstanceAs (Decidable (other = name → ∀ part : Part,
      part ≠ .dependency_requests → Since (host.store.floors part) (parts part)))
  | .publish other summary revision => decidable_of_iff (other = name → ∀ begun ∈ role.started,
      begun.1 = revision → PublishMeets host summary begun.2)
    ⟨fun all mine time started => all mine (revision, time) started rfl,
      fun all mine begun started same => all mine begun.2 (same ▸ started)⟩
  | .erase other => inferInstanceAs (Decidable (other = name → host.store.owed = false
      ∧ ∀ process ∈ host.processes, process.note.started = none))
  | .refreshMetadata _ _ (.error _) | .present _ | .read _ _ | .refresh _ _ | .lockWork | .unlockWork | .inventory
  | .reconcile _ | .sweepOrphans | .stopping | .takeUrgent _ | .unpend _ | .start _ | .fingerprint _ | .inspect _
  | .find _ | .await _ => .isTrue trivial

instance (host : Host) (move : Move) : Decidable (Meets name host move) :=
  match move with
  | .advance index _ =>
    decidable_of_iff (waits host index = false → host.NextMeets (fun role _ op => OpMeets name host role op) index)
      (imp_congr_right fun _ => Interleaved.nextMeets_iff)
  | .repositories names => inferInstanceAs (Decidable (name ∈ names))
  | .refresh _ | .refreshMetadata _ | .erase _ | .sweep | .worker _ | .stop | .write _ _ _ | .push _ _ => .isTrue trivial

def decideRunMeets (host : Host) (moves : List Move) : Decidable (RunMeets name host moves) :=
  match moves with
  | [] => .isTrue trivial
  | move :: rest =>
    have : Decidable (RunMeets name (step name host move) rest) := decideRunMeets _ rest
    inferInstanceAs (Decidable (Meets name host move ∧ RunMeets name (step name host move) rest))

instance (host : Host) (moves : List Move) : Decidable (RunMeets name host moves) := decideRunMeets name host moves

/-- An index as it is made: a placeholder for each project. -/
def made (state : State) : Host :=
  { store := { state, floors := fun _ => 0, published := 0, shown := fun _ => false, owed := false }, processes := [] }

/-- A fresh index with the project's repository in place. -/
structure Initial (state : State) : Prop where
  present : name ∈ state.repositories
  records : ∀ other summary, state.record other = some summary → summary.parts = fun _ => none
  begun : 0 < state.now
  idle : state.urgent = [] ∧ state.urgent_order = []

end
end CkGit.Index
