import CkGit.Projects.Model

/-!
A project and its metadata go together, whatever creates, removals, sweeps,
reports and events interleave and wherever they stop. The code keeps this as
long as the CI gateway records no event of a project that was removed, and a
project whose removal stopped before the end of its cleanup, or for which an
event was recorded since, is not created again before a sweep has cleaned up.
-/
namespace CkGit.Projects
open CkGit.Base CkGit.Ci

inductive Phase where
  | existing
  /-- The repository was moved away, the cleanup is to come. -/
  | moved
  /-- There is no repository, and there may be metadata. -/
  | left
  | clean
  /-- A removal went through. -/
  | removed
  deriving DecidableEq

/-- The store with what happened to one project. -/
structure Watch where
  store : Store
  phase : Phase

structure Role where
  lifecycle : Bool := false
  metadata : Bool := false
  /-- What was found of the repository of the project under the lifecycle lock. -/
  found : Option Bool := none
  /-- The checkouts of the project are removed, under the metadata lock. -/
  unregistered : Bool := false
  /-- What the logs hold, under the metadata lock. -/
  logs : Option Logs := none
  /-- The live log has a second name. -/
  archived : Bool := false

section
variable (name : Bytes)

def Logs.Clear (logs : Logs) : Prop := ∀ event ∈ logs.events, event.project_name ≠ name

/-- The edit of a log adds no event, and takes none of the project unless its repository is gone. -/
def Edits (role : Role) (file : Nat) (edit : List StateEvent → List StateEvent) : Prop :=
  ∃ logs, role.logs = some logs ∧ ∀ content, logs.files[file]? = some content →
    (∀ event ∈ edit content, event ∈ content)
      ∧ (role.found ≠ some false → ∀ event ∈ content, event.project_name = name → event ∈ edit content)

/-- What the processes ask for: a lock comes before what it guards. -/
def roles : Protocol ProjectOp Role where
  allowed role op :=
    match op with
    | .unlockLifecycle | .present _ | .rename _ => role.lifecycle = true
    | .init other => role.lifecycle = true ∧ (other = name → role.found = some false)
    | .unlockMetadata | .forget _ _ | .openLog | .linkArchive | .append _ _ _ _ | .readLogs
    | .rmdirProject _ => role.metadata = true
    | .putCheckout other _ => role.metadata = true ∧ (other = name → role.found = some true)
    | .unlinkLive => role.archived = true
    | .unlinkCheckout other _ => role.metadata = true ∧ (other = name → role.found = some false)
    | .writeLog file retained => Edits name role file (rewritten · retained)
    | .truncateLog file size => Edits name role file (·.take size)
    | .syncMetadata other => other = name → role.found = some false ∧ role.unregistered = true
        ∧ ∃ logs, role.logs = some logs ∧ logs.Clear name
    | _ => True
  after role op reply :=
    match op, reply with
    | .lockLifecycle, _ => { role with lifecycle := true, found := none }
    | .unlockLifecycle, _ => { role with lifecycle := false, found := none }
    | .lockMetadata, _ => { role with metadata := true, unregistered := false, logs := none, archived := false }
    | .unlockMetadata, _ =>
      { role with metadata := false, unregistered := false, logs := none, archived := false }
    | .present other, reply => if other = name then { role with found := some reply } else role
    | .init other, _ => if other = name then { role with found := none } else role
    | .rename other, reply =>
      if other = name then { role with found := if reply then some false else role.found } else role
    | .putCheckout _ _, _ => { role with unregistered := false }
    | .rmdirProject other, reply =>
      if other = name then { role with unregistered := role.unregistered || reply } else role
    | .openLog, _ => { role with logs := none, archived := false }
    | .linkArchive, reply => { role with logs := none, archived := reply }
    | .unlinkLive, _ => { role with logs := none, archived := false }
    | .append _ _ _ _, _ => { role with logs := none }
    | .readLogs, reply => { role with logs := reply }
    | .readLog file, reply =>
      { role with logs := role.logs.map fun logs => reply.elim logs fun content => logs.edit file fun _ => content }
    | .writeLog file retained, reply =>
      { role with logs := role.logs.map fun logs => if reply then logs.edit file (rewritten · retained) else logs }
    | .truncateLog file size, reply =>
      { role with logs := role.logs.map fun logs => if reply then logs.edit file (·.take size) else logs }
    | _, _ => role

/-- What an operation with this reply means for the project. -/
def Phase.next (phase : Phase) {β : Type} (op : ProjectOp β) (reply : β) : Phase :=
  match op, reply with
  -- Who held the lock before is done with it.
  | .lockLifecycle, _ => if phase = .moved then .left else phase
  | .init other, reply => if other = name ∧ reply = true then .existing else phase
  | .rename other, reply =>
    if other = name ∧ reply = true ∧ phase = .existing then .moved else phase
  | .append _ _ other _, reply =>
    if other = name ∧ reply = true ∧ phase = .clean then .left else phase
  | .syncMetadata other, reply =>
    if other = name ∧ reply = true then
      match phase with
      | .moved => .removed
      | .left => .clean
      | phase => phase
    else phase
  | _, _ => phase

def observe (fails : Bool) {β : Type} (op : ProjectOp β) (watch : Watch) : β × Watch :=
  let (reply, store) := perform fails op watch.store
  (reply, { store, phase := watch.phase.next name op reply })

abbrev Host := Interleaved ProjectOp Role Watch

inductive Move where
  | create (name : Bytes)
  | remove (name : Bytes)
  | sweep
  | register (epoch_seconds : UInt64) (name client_id : Bytes) (full : Bool)
  | forget (name client_id : Bytes)
  | hostedEvent (epoch_seconds : UInt64) (kind name client_id : Bytes) (full : Bool)
  | gatewayEvent (epoch_seconds : UInt64) (kind name runner : Bytes) (full : Bool)
  | advance (index : Nat) (fails : Bool)
  | crash (index : Nat)

/-- The next operation waits for a lock. -/
def waits (host : Host) (index : Nat) : Bool :=
  match host.processes[index]? with
  | some ⟨_, .call op _⟩ => !ready op host.store.store
  | _ => false

/-- The locks of a process that dies are released. -/
def Store.released (role : Role) (store : Store) : Store :=
  { store with
    lifecycle := store.lifecycle && !role.lifecycle
    metadata := store.metadata && !role.metadata }

def Host.crash (host : Host) (index : Nat) : Host :=
  match host.processes[index]? with
  | some process =>
    { store := { host.store with store := host.store.store.released process.note }
      processes := host.processes.set index ⟨{}, .done ()⟩ }
  | none => host

def step (host : Host) (move : Move) : Host :=
  match move with
  | .create other => host.start ⟨{}, createBareRepository other⟩
  | .remove other => host.start ⟨{}, removeProject other⟩
  | .sweep => host.start ⟨{}, sweepOrphanProjectMetadata⟩
  | .register epoch_seconds other client_id full =>
    host.start ⟨{}, registerHostedCheckout epoch_seconds other client_id full⟩
  | .forget other client_id => host.start ⟨{}, forgetHostedCheckout other client_id⟩
  | .hostedEvent epoch_seconds kind other client_id full =>
    host.start ⟨{}, appendHostedStateEvent epoch_seconds kind other client_id full⟩
  | .gatewayEvent epoch_seconds kind other runner full =>
    host.start ⟨{}, recordEvent epoch_seconds kind other runner full⟩
  | .advance index fails =>
    if waits host index then host else host.advance (roles name) (observe name fails) index
  | .crash index => host.crash index

def runFrom (host : Host) (moves : List Move) : Host := moves.foldl (step name) host

/-- No checkout and no event of the project. -/
structure Bare (store : Store) : Prop where
  checkouts : ∀ checkout ∈ store.checkouts, checkout.project_name ≠ name
  events : store.logs.Clear name

/-- All of them were recorded since the project was created. -/
structure Own (store : Store) : Prop where
  checkouts : ∀ checkout ∈ store.checkouts, checkout.project_name = name →
    checkout.incarnation = store.incarnation name
  events : ∀ event ∈ store.logs.events, event.project_name = name →
    event.incarnation = store.incarnation name

/-- All of them are still there. -/
structure Spared (before after : Store) : Prop where
  checkouts : ∀ checkout ∈ before.checkouts, checkout.project_name = name → checkout ∈ after.checkouts
  events : ∀ event ∈ before.logs.events, event.project_name = name → event ∈ after.logs.events

/-- A client forgets its checkout of the project. -/
def IsForget {β : Type} (op : ProjectOp β) : Prop :=
  match op with
  | .forget other _ => other = name
  | _ => False

def Forgets (host : Host) (move : Move) : Prop :=
  match move with
  | .advance index _ => ∃ role β, ∃ op : ProjectOp β, ∃ next,
      host.processes[index]? = some ⟨role, .call op next⟩ ∧ IsForget name op
  | _ => False

structure Sound (host : Host) : Prop where
  removed : host.store.phase = .removed → Bare name host.store.store
  own : name ∈ host.store.store.repositories → Own name host.store.store

/-- Every state of the run is sound, and no move but a forget takes metadata of a project whose
repository exists. -/
def Together (host : Host) (moves : List Move) : Prop :=
  ∀ count, Sound name (runFrom name host (moves.take count))
    ∧ ∀ move, moves[count]? = some move → name ∈ (runFrom name host (moves.take count)).store.store.repositories →
      ¬ Forgets name (runFrom name host (moves.take count)) move →
      Spared name (runFrom name host (moves.take count)).store.store
        (step name (runFrom name host (moves.take count)) move).store.store

def OpMeets {β : Type} (watch : Watch) (op : ProjectOp β) : Prop :=
  match op with
  -- No event is recorded of a project that was removed.
  | .append _ _ other _ => other = name → watch.phase ≠ .removed
  -- A project is created once it is cleaned up, or where there is nothing to clean up.
  | .init other => other = name → watch.phase = .clean ∨ watch.phase = .removed ∨ Bare name watch.store
  | _ => True

def Meets (host : Host) (move : Move) : Prop :=
  match move with
  | .advance index _ => waits host index = false → ∀ role (β : Type) (op : ProjectOp β) next,
      host.processes[index]? = some ⟨role, .call op next⟩ → OpMeets name host.store op
  | _ => True

def RunMeets (host : Host) (moves : List Move) : Prop :=
  match moves with
  | [] => True
  | move :: rest => Meets name host move ∧ RunMeets (step name host move) rest

instance (store : Store) : Decidable (Bare name store) :=
  decidable_of_iff ((∀ checkout ∈ store.checkouts, checkout.project_name ≠ name)
    ∧ ∀ event ∈ store.logs.events, event.project_name ≠ name)
    ⟨fun both => ⟨both.1, both.2⟩, fun bare => ⟨bare.checkouts, bare.events⟩⟩

instance {β : Type} (watch : Watch) (op : ProjectOp β) : Decidable (OpMeets name watch op) :=
  match op with
  | .append _ _ other _ => inferInstanceAs (Decidable (other = name → watch.phase ≠ .removed))
  | .init other =>
    inferInstanceAs (Decidable (other = name → watch.phase = .clean ∨ watch.phase = .removed ∨ Bare name watch.store))
  | .lockLifecycle | .unlockLifecycle | .lockMetadata | .unlockMetadata | .present _ | .configure | .validate
  | .rename _ | .sync | .listNames | .makeDirectory _ | .putCheckout _ _ | .forget _ _ | .openLog | .linkArchive
  | .unlinkLive | .readLogs | .listClients _ | .unlinkCheckout _ _ | .rmdirProject _ | .readLog _ | .writeLog _ _
  | .truncateLog _ _ | .syncMetadata _ => .isTrue trivial

instance (host : Host) (move : Move) : Decidable (Meets name host move) :=
  match move with
  | .advance index _ =>
    decidable_of_iff (waits host index = false → host.NextMeets (fun _ _ op => OpMeets name host.store op) index)
      (imp_congr_right fun _ => Interleaved.nextMeets_iff)
  | .create _ | .remove _ | .sweep | .register .. | .forget .. | .hostedEvent .. | .gatewayEvent .. | .crash _ =>
    .isTrue trivial

def decideRunMeets (host : Host) (moves : List Move) : Decidable (RunMeets name host moves) :=
  match moves with
  | [] => .isTrue trivial
  | move :: rest =>
    have : Decidable (RunMeets name (step name host move) rest) := decideRunMeets _ rest
    inferInstanceAs (Decidable (Meets name host move ∧ RunMeets name (step name host move) rest))

instance (host : Host) (moves : List Move) : Decidable (RunMeets name host moves) := decideRunMeets name host moves

/-- No process runs yet, and the metadata of the project is its own or cleaned up. -/
structure Initial (store : Store) : Prop where
  unlocked : store.lifecycle = false ∧ store.metadata = false
  own : name ∈ store.repositories → Own name store
  bare : name ∉ store.repositories → Bare name store

def made (store : Store) : Host :=
  { store := { store, phase := if name ∈ store.repositories then .existing else .clean }
    processes := [] }

end
end CkGit.Projects
