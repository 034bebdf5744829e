import CkGit.Base.Assoc
import CkGit.Base.Script
import CkGit.Ci.Names

/-!
The index of projects: refresh, refreshMetadata, erase, sweep and the worker's
loop of ProjectIndex (src/common/project_index.cpp), with a state root. What is
done under the index's mutex is one operation; a read of the metadata store is
one, and each remembers when it was made. What the worker reads of a repository
through Git is one as well and kept as the fingerprint only.
-/
namespace CkGit.Index
open CkGit.Base CkGit.Ci

def kUrgentRefreshBurst : Nat := 4

/-- What a record shows of the metadata store. -/
inductive Part where
  | checkouts
  | events
  | ci_runs
  | dependency_requests
  | releases
  deriving DecidableEq

/-- A value and when it was read from the store. -/
structure Read where
  value : Bytes
  at_time : Nat
  deriving DecidableEq

abbrev Parts := Part → Option Read

structure ProjectSummary where
  indexing : Bool := false
  index_error : Option String := none
  fingerprint : Bytes := []
  parts : Parts := fun _ => none

def placeholder : ProjectSummary := { indexing := true }

structure State where
  /-- The projects whose repository exists. -/
  repositories : List Bytes
  /-- What Git tells of the refs and the head. -/
  refs : List (Bytes × Bytes)
  /-- The metadata store. -/
  stored : List ((Bytes × Part) × Bytes)
  /-- The operations so far. -/
  now : Nat
  records : List (Bytes × ProjectSummary)
  metadata_revisions : List (Bytes × Nat)
  pending : List Bytes
  urgent : List Bytes
  urgent_order : List Bytes
  working : Bool
  stopping : Bool

def State.record (state : State) (name : Bytes) : Option ProjectSummary := Assoc.get name state.records

def State.revision (state : State) (name : Bytes) : Nat :=
  (Assoc.get name state.metadata_revisions).getD 0

/-- Adds a placeholder for a project that exists and has no record. -/
def State.known (state : State) (name : Bytes) (present : Bool) : State :=
  if present && (state.record name).isNone then
    { state with records := Assoc.put name placeholder state.records }
  else state

def State.refresh (state : State) (name : Bytes) (present : Bool) : State :=
  let state := state.known name present
  let state := { state with pending := state.pending.filter (· ≠ name) }
  if name ∈ state.urgent then state
  else { state with urgent := name :: state.urgent, urgent_order := state.urgent_order ++ [name] }

/-- The reads of a refreshMetadata, or its error. -/
def State.refreshMetadata (state : State) (name : Bytes) (present : Bool) (updated : Except String Parts) :
    State :=
  let state := state.known name present
  match state.record name with
  | none => state
  | some summary =>
    let summary := match updated with
      | .ok parts => { summary with parts }
      | .error error => { summary with index_error := some error }
    { state with
      records := Assoc.put name summary state.records
      metadata_revisions := Assoc.put name (state.revision name + 1) state.metadata_revisions }

def State.erase (state : State) (name : Bytes) : State :=
  { state with
    records := Assoc.erase name state.records
    pending := state.pending.filter (· ≠ name)
    urgent := state.urgent.filter (· ≠ name)
    urgent_order := state.urgent_order.filter (· ≠ name)
    metadata_revisions := Assoc.erase name state.metadata_revisions }

/-- Keeps the records of these projects only, and has one for each. -/
def State.reconcile (state : State) (names : List Bytes) : State :=
  let kept := { state with
    records := state.records.filter fun record => record.1 ∈ names
    metadata_revisions := state.metadata_revisions.filter fun revision =>
      revision.1 ∈ names ∨ (state.record revision.1).isNone }
  names.foldl (fun state name => state.known name true) kept

def State.takeUrgent (state : State) : Option Bytes × State :=
  match state.urgent_order with
  | [] => (none, state)
  | name :: rest => (some name, { state with urgent_order := rest, urgent := state.urgent.filter (· ≠ name) })

/-- The end of a rebuild: metadata that was published meanwhile wins. -/
def State.publish (state : State) (name : Bytes) (summary : ProjectSummary) (revision : Nat) : State :=
  let summary :=
    if state.revision name = revision then summary
    else match state.record name with
      | none => summary
      | some held =>
        { summary with parts := fun part =>
            if part = .checkouts ∨ part = .events then held.parts part else summary.parts part }
  { state with records := Assoc.put name summary state.records }

/-- What the worker wakes up for. -/
inductive Work where
  | stop
  | rebuild (name : Bytes) (urgent_burst : Nat)
  | sweep

/-- Late: it is time for the next sweep. -/
def State.await (state : State) (urgent_burst : Nat) (late : Bool) : Work × State :=
  if state.stopping then (.stop, state)
  else if late then (.sweep, state)
  else if !state.urgent.isEmpty && (urgent_burst < kUrgentRefreshBurst || state.pending.isEmpty) then
    match state.takeUrgent with
    | (some name, state) => (.rebuild name (urgent_burst + 1), state)
    | (none, state) => (.sweep, state)
  else match state.pending with
    | [] => (.sweep, state)
    | name :: rest => (.rebuild name 0, { state with pending := rest })

inductive IndexOp : Type → Type where
  | present (name : Bytes) : IndexOp Bool
  | read (name : Bytes) (part : Part) : IndexOp (Option Read)
  | refresh (name : Bytes) (present : Bool) : IndexOp Unit
  | refreshMetadata (name : Bytes) (present : Bool) (updated : Except String Parts) : IndexOp Unit
  | erase (name : Bytes) : IndexOp Unit
  | lockWork : IndexOp Unit
  | unlockWork : IndexOp Unit
  | inventory : IndexOp (Option (List Bytes))
  | reconcile (names : List Bytes) : IndexOp Unit
  | sweepOrphans : IndexOp Bool
  | stopping : IndexOp Bool
  | takeUrgent (honor_stop : Bool) : IndexOp (Option Bytes)
  | unpend (name : Bytes) : IndexOp Unit
  /-- The start of a rebuild: the revision, and when. -/
  | start (name : Bytes) : IndexOp (Nat × Nat)
  /-- The refs and the head through Git. -/
  | fingerprint (name : Bytes) : IndexOp (Option Bytes)
  /-- The rest of the inspection through Git. -/
  | inspect (name : Bytes) : IndexOp Bool
  | find (name : Bytes) : IndexOp (Option ProjectSummary)
  | publish (name : Bytes) (summary : ProjectSummary) (revision : Nat) : IndexOp Unit
  | await (urgent_burst : Nat) : IndexOp Work

/-- The reply and the index after; what may fail or be late does so. -/
def act (fails : Bool) {β : Type} (op : IndexOp β) (state : State) : β × State :=
  match op with
  | .present name => (decide (name ∈ state.repositories), state)
  | .read name part =>
    (if fails then none
      else some ⟨(Assoc.get (name, part) state.stored).getD [], state.now⟩, state)
  | .refresh name present => ((), state.refresh name present)
  | .refreshMetadata name present updated => ((), state.refreshMetadata name present updated)
  | .erase name => ((), state.erase name)
  | .lockWork => ((), { state with working := true })
  | .unlockWork => ((), { state with working := false })
  | .inventory => (if fails then none else some state.repositories, state)
  | .reconcile names => ((), state.reconcile names)
  | .sweepOrphans => (!fails, state)
  | .stopping => (state.stopping, state)
  | .takeUrgent honor_stop => if honor_stop && state.stopping then (none, state) else state.takeUrgent
  | .unpend name => ((), { state with pending := state.pending.filter (· ≠ name) })
  | .start name => ((state.revision name, state.now), state)
  | .fingerprint name => (if fails then none else some ((Assoc.get name state.refs).getD []), state)
  | .inspect _ => (!fails, state)
  | .find name => (state.record name, state)
  | .publish name summary revision => ((), state.publish name summary revision)
  | .await urgent_burst => state.await urgent_burst fails

def perform (fails : Bool) {β : Type} (op : IndexOp β) (state : State) : β × State :=
  let (reply, after) := act fails op state
  (reply, { after with now := state.now + 1 })

/-- Only the lock of the work is waited for. -/
def ready {β : Type} (op : IndexOp β) (state : State) : Bool :=
  match op with
  | .lockWork => !state.working
  | _ => true

def refresh (name : Bytes) : Script IndexOp Unit := do
  if isValidProjectName name then
    .ask (.refresh name (← .ask (.present name)))

/-- The reads so far, and the error that ended them. -/
def readParts (name : Bytes) (parts : List Part) (held : Parts) : Script IndexOp (Parts × Option String) :=
  match parts with
  | [] => pure (held, none)
  | part :: rest => do
    match ← .ask (.read name part) with
    | some read => readParts name rest fun other => if other = part then some read else held other
    | none =>
      -- Dependency requests that cannot be read are reported as such.
      if part = .dependency_requests then readParts name rest held
      else pure (held, some "could not read project metadata")

def metadata (name : Bytes) (held : Parts) : Script IndexOp (Parts × Option String) :=
  readParts name [.checkouts, .events, .ci_runs, .dependency_requests, .releases] held

def refreshMetadata (name : Bytes) : Script IndexOp Unit := do
  if isValidProjectName name then
    let (parts, error) ← metadata name fun _ => none
    let present ← .ask (.present name)
    .ask (.refreshMetadata name present (error.elim (.ok parts) .error))

/-- Keeps a usable record after an error, else what there is so far. -/
def keepOld (name : Bytes) (summary : ProjectSummary) (error : String) : Script IndexOp ProjectSummary := do
  let old ← .ask (.find name)
  let kept := (old.filter (!·.indexing)).getD summary
  pure { kept with index_error := some error, indexing := false }

def withMetadata (name : Bytes) (summary : ProjectSummary) : Script IndexOp ProjectSummary := do
  let (parts, error) ← metadata name summary.parts
  match error with
  | none => pure { summary with parts }
  | some error => keepOld name { summary with parts } error

def unchanged (force : Bool) (fingerprint : Bytes) (old : ProjectSummary) : Bool :=
  !force && !old.indexing && old.index_error.isNone && old.fingerprint == fingerprint

def inspected (name : Bytes) (fingerprint : Bytes) : Script IndexOp ProjectSummary := do
  if ← .ask (.inspect name) then withMetadata name { fingerprint }
  else keepOld name { fingerprint } "Git could not inspect the repository"

def summarize (name : Bytes) (force : Bool) : Script IndexOp ProjectSummary := do
  match ← .ask (.fingerprint name) with
  | none => keepOld name {} "Git could not read the refs"
  | some fingerprint =>
    match (← .ask (.find name)).filter (unchanged force fingerprint) with
    | some old => withMetadata name old
    | none => inspected name fingerprint

def rebuild (name : Bytes) (force : Bool) : Script IndexOp Unit := do
  if ← .ask (.present name) then
    let (revision, _) ← .ask (.start name)
    let summary ← summarize name force
    -- An entry removed meanwhile is not brought back.
    if ← .ask (.present name) then .ask (.publish name summary revision)
    else .ask (.erase name)
  else .ask (.erase name)

def drainUrgent (honor_stop : Bool) (count : Nat) : Script IndexOp Unit :=
  match count with
  | 0 => pure ()
  | count + 1 => do
    match ← .ask (.takeUrgent honor_stop) with
    | none => pure ()
    | some name =>
      rebuild name true
      drainUrgent honor_stop count

/-- Whether to stop. -/
def stopsNow (background : Bool) : Script IndexOp Bool :=
  if background then .ask .stopping else pure false

def sweepEach (background : Bool) (names : List Bytes) : Script IndexOp Unit :=
  match names with
  | [] => pure ()
  | name :: rest => do
    if ← stopsNow background then pure ()
    else
      drainUrgent background kUrgentRefreshBurst
      if ← stopsNow background then pure ()
      else
        .ask (.unpend name)
        rebuild name false
        sweepEach background rest

/-- Whether the sweep did not throw. -/
def sweep (background : Bool) : Script IndexOp Bool := do
  .ask .lockWork
  match ← .ask .inventory with
  | none =>
    .ask .unlockWork
    pure false
  | some names =>
    .ask (.reconcile names)
    if ← .ask .sweepOrphans then
      sweepEach background names
      .ask .unlockWork
      pure true
    else
      .ask .unlockWork
      pure false

/-- The worker's loop; the rounds are how often it wakes up. -/
def run (rounds urgent_burst : Nat) : Script IndexOp Unit :=
  match rounds with
  | 0 => pure ()
  | rounds + 1 => do
    match ← .ask (.await urgent_burst) with
    | .stop => pure ()
    | .rebuild name urgent_burst =>
      .ask .lockWork
      rebuild name true
      .ask .unlockWork
      run rounds urgent_burst
    | .sweep =>
      let swept ← sweep true
      run rounds (if swept then 0 else urgent_burst)

end CkGit.Index
