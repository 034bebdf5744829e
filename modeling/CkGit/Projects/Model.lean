import CkGit.Base.Assoc
import CkGit.Base.Script
import CkGit.Ci.Names

/-!
The lifecycle of projects: createBareRepository, removeProject,
sweepOrphanProjectMetadata, registerHostedCheckout, forgetHostedCheckout and
appendHostedStateEvent (src/common/repository_store.cpp), registerCheckout,
forgetCheckout, appendStateEvent, listProjectMetadataNames and
removeProjectMetadata (src/common/metadata_store.cpp), and the recordEvent of the
CI gateway (src/common/ci_gateway.cpp). Every call of the file system is an
operation that may fail; a write is one. A log is kept as its events, a section
under the shared metadata lock is one operation, and what a checkout report says
and how it is staged are left out, as is the projects directory of the metadata,
which nothing writes.
-/
namespace CkGit.Projects
open CkGit.Base CkGit.Ci

structure StateEvent where
  epoch_seconds : UInt64
  kind : Bytes
  project_name : Bytes
  client_id : Bytes
  /-- How often the project had been created by then. -/
  incarnation : Nat
  deriving DecidableEq

structure Checkout where
  project_name : Bytes
  client_id : Bytes
  incarnation : Nat
  deriving DecidableEq

/-- Two names may be of one file, as between the link and the unlink of a rotation. -/
structure Logs where
  archives : List Nat
  live : Option Nat
  files : List (List StateEvent)

namespace Logs

def names (logs : Logs) : List Nat := logs.archives ++ logs.live.toList

def events (logs : Logs) : List StateEvent := logs.names.flatMap fun file => logs.files[file]?.getD []

def edit (file : Nat) (f : List StateEvent → List StateEvent) (logs : Logs) : Logs :=
  { logs with files := logs.files.modify file f }

/-- Opening the live log with O_CREAT. -/
def openLog (logs : Logs) : Logs :=
  match logs.live with
  | some _ => logs
  | none => { logs with live := some logs.files.length, files := logs.files ++ [[]] }

def linkArchive (logs : Logs) : Logs := { logs with archives := logs.archives ++ logs.live.toList }

def unlinkLive (logs : Logs) : Logs := { logs with live := none }

def append (event : StateEvent) (logs : Logs) : Logs :=
  match logs.live with
  | some file => logs.edit file (· ++ [event])
  | none => logs

end Logs

structure Store where
  repositories : List Bytes
  /-- How often each project was created. -/
  incarnations : List (Bytes × Nat)
  /-- The projects with a directory of checkouts. -/
  directories : List Bytes
  checkouts : List Checkout
  logs : Logs
  /-- The lock of the repository root. -/
  lifecycle : Bool
  /-- The exclusive lock of the metadata. -/
  metadata : Bool

def Store.incarnation (store : Store) (name : Bytes) : Nat := (Assoc.get name store.incarnations).getD 0

/-- The names in the directories and the logs. -/
def Store.names (store : Store) : List Bytes :=
  sortedUnique (store.directories ++ store.logs.events.map (·.project_name))

inductive ProjectOp : Type → Type where
  | lockLifecycle : ProjectOp Unit
  | unlockLifecycle : ProjectOp Unit
  | lockMetadata : ProjectOp Unit
  | unlockMetadata : ProjectOp Unit
  /-- The lstat of a repository. -/
  | present (name : Bytes) : ProjectOp Bool
  | init (name : Bytes) : ProjectOp Bool
  | configure : ProjectOp Bool
  /-- The checks of the metadata and the trash before a removal. -/
  | validate : ProjectOp Bool
  | rename (name : Bytes) : ProjectOp Bool
  | sync : ProjectOp Bool
  | listNames : ProjectOp (Option (List Bytes))
  | makeDirectory (name : Bytes) : ProjectOp Bool
  | putCheckout (name client_id : Bytes) : ProjectOp Bool
  | forget (name client_id : Bytes) : ProjectOp Bool
  | openLog : ProjectOp Bool
  | linkArchive : ProjectOp Bool
  | unlinkLive : ProjectOp Bool
  | append (epoch_seconds : UInt64) (kind name client_id : Bytes) : ProjectOp Bool
  | readLogs : ProjectOp (Option Logs)
  | listClients (name : Bytes) : ProjectOp (Option (List Bytes))
  | unlinkCheckout (name client_id : Bytes) : ProjectOp Bool
  | rmdirProject (name : Bytes) : ProjectOp Bool
  | readLog (file : Nat) : ProjectOp (Option (List StateEvent))
  | writeLog (file : Nat) (retained : List StateEvent) : ProjectOp Bool
  | truncateLog (file size : Nat) : ProjectOp Bool
  /-- The last fsync of a cleanup. -/
  | syncMetadata (name : Bytes) : ProjectOp Bool

/-- A rewritten log keeps the end of what was there until it is cut off. -/
def rewritten (content retained : List StateEvent) : List StateEvent :=
  retained ++ content.drop retained.length

/-- The operation where it does not fail. -/
def work {β : Type} (op : ProjectOp β) (store : Store) : β × Store :=
  match op with
  | .lockLifecycle => ((), { store with lifecycle := true })
  | .unlockLifecycle => ((), { store with lifecycle := false })
  | .lockMetadata => ((), { store with metadata := true })
  | .unlockMetadata => ((), { store with metadata := false })
  | .present name => (decide (name ∈ store.repositories), store)
  | .init name =>
    (true, { store with
      repositories := name :: store.repositories
      incarnations := Assoc.put name (store.incarnation name + 1) store.incarnations })
  | .configure | .validate | .sync | .syncMetadata _ => (true, store)
  | .rename name => (true, { store with repositories := store.repositories.filter (· ≠ name) })
  | .listNames => (some store.names, store)
  | .makeDirectory name => (true, { store with directories := name :: store.directories.filter (· ≠ name) })
  | .putCheckout name client_id =>
    (true, { store with checkouts := ⟨name, client_id, store.incarnation name⟩
      :: store.checkouts.filter fun checkout => checkout.project_name ≠ name ∨ checkout.client_id ≠ client_id })
  | .forget name client_id | .unlinkCheckout name client_id =>
    (true, { store with checkouts := store.checkouts.filter fun checkout =>
      checkout.project_name ≠ name ∨ checkout.client_id ≠ client_id })
  | .openLog => (true, { store with logs := store.logs.openLog })
  | .linkArchive => (true, { store with logs := store.logs.linkArchive })
  | .unlinkLive => (true, { store with logs := store.logs.unlinkLive })
  | .append epoch_seconds kind name client_id =>
    let event : StateEvent := ⟨epoch_seconds, kind, name, client_id, store.incarnation name⟩
    (true, { store with logs := store.logs.append event })
  | .readLogs => (some store.logs, store)
  | .listClients name =>
    (some ((store.checkouts.filter (·.project_name = name)).map (·.client_id)), store)
  | .rmdirProject name =>
    if store.checkouts.any (·.project_name = name) then (false, store)
    else (true, { store with directories := store.directories.filter (· ≠ name) })
  | .readLog file => (store.logs.files[file]?, store)
  | .writeLog file retained => (true, { store with logs := store.logs.edit file (rewritten · retained) })
  | .truncateLog file size => (true, { store with logs := store.logs.edit file (·.take size) })

/-- What the caller gets from an operation that fails. -/
def failure {β : Type} (op : ProjectOp β) : Option β :=
  match op with
  | .lockLifecycle | .unlockLifecycle | .lockMetadata | .unlockMetadata | .present _ => none
  | .init _ | .configure | .validate | .rename _ | .sync | .makeDirectory _ | .putCheckout _ _ | .forget _ _
  | .openLog | .linkArchive | .unlinkLive | .append _ _ _ _ | .unlinkCheckout _ _ | .rmdirProject _
  | .writeLog _ _ | .truncateLog _ _ | .syncMetadata _ => some false
  | .listNames | .readLogs | .listClients _ | .readLog _ => some none

def perform (fails : Bool) {β : Type} (op : ProjectOp β) (store : Store) : β × Store :=
  match fails, failure op with
  | true, some reply => (reply, store)
  | _, _ => work op store

/-- What waits for a lock. -/
def ready {β : Type} (op : ProjectOp β) (store : Store) : Bool :=
  match op with
  | .lockLifecycle => !store.lifecycle
  | .lockMetadata | .validate | .listNames => !store.metadata
  | _ => true

abbrev Steps := Script ProjectOp

/-- A section under the exclusive metadata lock. -/
def underMetadata (body : Steps Bool) : Steps Bool := do
  .ask .lockMetadata
  let done ← body
  .ask .unlockMetadata
  pure done

/-- The operations in turn, up to the first that fails. -/
def allOf (steps : List (ProjectOp Bool)) : Steps Bool :=
  match steps with
  | [] => pure true
  | step :: rest => do
    if ← .ask step then allOf rest else pure false

/-- The live log is archived first when it is full. -/
def appendStateEvent (epoch_seconds : UInt64) (kind name client_id : Bytes) (full : Bool) : Steps Bool :=
  underMetadata <| allOf <|
    [.openLog] ++ (if full then [.linkArchive, .unlinkLive, .openLog] else [])
      ++ [.append epoch_seconds kind name client_id]

/-- The report is put in place by a rename. -/
def registerCheckout (name client_id : Bytes) : Steps Bool :=
  underMetadata (allOf [.makeDirectory name, .putCheckout name client_id])

def unlinkEach (name : Bytes) (clients : List Bytes) : Steps Bool :=
  match clients with
  | [] => .ask (.rmdirProject name)
  | client_id :: rest => do
    if ← .ask (.unlinkCheckout name client_id) then unlinkEach name rest else pure false

def removeCheckouts (name : Bytes) : Steps Bool := do
  match ← .ask (.listClients name) with
  | none => pure false
  | some clients => unlinkEach name clients

def isOf (name : Bytes) (event : StateEvent) : Bool := event.project_name = name

/-- The logs that hold events of the project. -/
def replacements (name : Bytes) (logs : Logs) : List Nat :=
  logs.names.filter fun file => (logs.files[file]?.getD []).any (isOf name)

def scrubEach (name : Bytes) (files : List Nat) : Steps Bool :=
  match files with
  | [] => .ask (.syncMetadata name)
  | file :: rest => do
    match ← .ask (.readLog file) with
    | none => pure false
    | some content =>
      let retained := content.filter (!isOf name ·)
      if ← allOf [.writeLog file retained, .truncateLog file retained.length] then scrubEach name rest
      else pure false

def cleanUp (name : Bytes) : Steps Bool := do
  match ← .ask .readLogs with
  | none => pure false
  | some logs =>
    if ← removeCheckouts name then scrubEach name (replacements name logs) else pure false

def removeProjectMetadata (name : Bytes) : Steps Bool := underMetadata (cleanUp name)

/-- A section under the lifecycle lock. -/
def underLifecycle (body : Steps Unit) : Steps Unit := do
  .ask .lockLifecycle
  body
  .ask .unlockLifecycle

def createBareRepository (name : Bytes) : Steps Unit := underLifecycle do
  if ← .ask (.present name) then pure ()
  else if ← .ask (.init name) then
    let _ ← .ask .configure
    pure ()
  else pure ()

def removeProject (name : Bytes) : Steps Unit := underLifecycle do
  if ← .ask (.present name) then
    if ← allOf [.validate, .rename name, .sync] then
      let _ ← removeProjectMetadata name
      pure ()
    else pure ()
  else pure ()

def sweepEach (names : List Bytes) : Steps Unit :=
  match names with
  | [] => pure ()
  | name :: rest => do
    if ← .ask (.present name) then sweepEach rest
    else if ← removeProjectMetadata name then sweepEach rest else pure ()

def sweepOrphanProjectMetadata : Steps Unit := underLifecycle do
  match ← .ask .listNames with
  | none => pure ()
  | some names => sweepEach names

def registerHostedCheckout (epoch_seconds : UInt64) (name client_id : Bytes) (full : Bool) : Steps Unit :=
  underLifecycle do
    if ← .ask (.present name) then
      if ← registerCheckout name client_id then
        let _ ← appendStateEvent epoch_seconds (ascii "checkout-registered") name client_id full
        pure ()
      else pure ()
    else pure ()

def forgetHostedCheckout (name client_id : Bytes) : Steps Unit := underLifecycle do
  let _ ← underMetadata (.ask (.forget name client_id))
  pure ()

def appendHostedStateEvent (epoch_seconds : UInt64) (kind name client_id : Bytes) (full : Bool) :
    Steps Unit :=
  underLifecycle do
    if ← .ask (.present name) then
      let _ ← appendStateEvent epoch_seconds kind name client_id full
      pure ()
    else pure ()

/-- The CI gateway's event; the lifecycle lock is not taken. -/
def recordEvent (epoch_seconds : UInt64) (kind name runner : Bytes) (full : Bool) : Steps Unit := do
  let _ ← appendStateEvent epoch_seconds kind name runner full
  pure ()

end CkGit.Projects
