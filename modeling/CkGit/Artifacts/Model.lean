import Mathlib.Data.UInt
import CkGit.Base.Script
import CkGit.Ci.FinishReport
import CkGit.Upload.Model

/-!
The artifacts of finished runs: the artifact part of commitCiRun with takeStaged
(src/common/ci_results.cpp), writeCiArtifactRecord and sweepCiArtifacts
(src/common/ci_store.cpp). A bundle and its sidecar are files of their own; a
directory is listed at once and a sidecar is kept as the record its text reads
back to. What a sweep takes from the run records (the runs it prunes, the files
of these in the order they are removed, the group of each run left) and what a
commit finds in its staging directory are inputs. The staging directories, the
releases and the count of removed files are left out.
-/
namespace CkGit.Artifacts
open CkGit.Base CkGit.Ci CkGit.Upload

def kMaximumCiArtifactRecordBytes : Nat := 4096
/-- The longest note a sidecar is read back with. -/
def kMaximumNoteBytes : Nat := 256

structure CiArtifactRecord where
  name : Bytes
  bytes : UInt64 := 0
  sha256 : Bytes := []
  created_epoch_seconds : UInt64 := 0
  expires_epoch_seconds : UInt64 := 0
  note : Bytes := []
  deriving DecidableEq

def serializeArtifact (artifact : CiArtifactRecord) : Bytes :=
  framed [ascii "schema_version=1",
    ascii "name=" ++ artifact.name,
    ascii "bytes=" ++ decimal artifact.bytes.toNat,
    ascii "sha256=" ++ artifact.sha256,
    ascii "created_epoch=" ++ decimal artifact.created_epoch_seconds.toNat,
    ascii "expires_epoch=" ++ decimal artifact.expires_epoch_seconds.toNat,
    ascii "note_hex=" ++ hexEncode artifact.note]

structure Run where
  project : Bytes
  run_id : Bytes
  deriving DecidableEq

/-- One name in the artifacts directory of a run. -/
structure Place where
  run : Run
  name : Bytes
  deriving DecidableEq

structure Store where
  bundles : List (Place × Bytes)
  sidecars : List (Place × CiArtifactRecord)

def Store.bundle (store : Store) (place : Place) : Option Bytes := store.bundles.lookup place

def Store.sidecar (store : Store) (place : Place) : Option CiArtifactRecord :=
  store.sidecars.lookup place

structure Listing where
  tars : List Bytes
  inis : List Bytes

/-- The names of a run among these places. -/
def namesIn (run : Run) (places : List Place) : List Bytes :=
  (places.filter fun place => place.run = run).map (·.name)

inductive FileOp : Type → Type where
  /-- The rename of a staged bundle. -/
  | move (place : Place) (bundle : Bytes) : FileOp Unit
  | record (place : Place) (artifact : CiArtifactRecord) : FileOp Unit
  | list (run : Run) : FileOp Listing
  | read (place : Place) : FileOp (Option CiArtifactRecord)
  | removeBundle (place : Place) : FileOp Unit
  | removeSidecar (place : Place) : FileOp Unit

def without {α : Type} (place : Place) (files : List (Place × α)) : List (Place × α) :=
  files.filter fun file => file.1 ≠ place

def perform {β : Type} (op : FileOp β) (store : Store) : β × Store :=
  match op with
  | .move place bundle => ((), { store with bundles := (place, bundle) :: without place store.bundles })
  | .record place artifact =>
    ((), { store with sidecars := (place, artifact) :: without place store.sidecars })
  | .list run =>
    (⟨namesIn run (store.bundles.map (·.1)), namesIn run (store.sidecars.map (·.1))⟩, store)
  | .read place => ((store.sidecar place).filter fun artifact => artifact.note.length ≤ kMaximumNoteBytes,
      store)
  | .removeBundle place => ((), { store with bundles := without place store.bundles })
  | .removeSidecar place => ((), { store with sidecars := without place store.sidecars })

/-- CiStagedUpload with its part file. -/
structure CiStagedUpload where
  kind : CiUploadKind
  name : Bytes
  total : UInt64
  sha256 : Bytes
  part : Option Bytes
  /-- The rename into the artifacts directory succeeds. -/
  moves : Bool

def CiStagedUpload.held (upload : CiStagedUpload) : Nat := upload.part.elim 0 List.length

structure CiCommit where
  run : Run
  child : Bool
  success : Bool
  is_release : Bool
  /-- The artifact the job of a child run declares. -/
  declared : Option Bytes
  /-- The outputs, each with the clock when it is stored. -/
  outputs : List (CiDeclaredOutput × UInt64)
  staged : List CiStagedUpload
  artifact_retention_days : UInt32
  artifact_max_retention_days : UInt32

section
variable (sha256 : Bytes → Bytes)

/-- A note, a size and a digest; nothing where the part cannot be read. -/
def takeStaged (staged : List CiStagedUpload) (kind : CiUploadKind) (name : Bytes)
    (destination : Place) : Script FileOp (Option (Bytes × UInt64 × Bytes)) :=
  match staged.find? fun upload => upload.kind = kind ∧ upload.name = name with
  | none => pure (some (ascii "the output was never uploaded", 0, []))
  | some upload =>
    if upload.held ≠ upload.total.toNat then pure (some (ascii "the upload was incomplete", 0, []))
    else match upload.part with
    | none => pure none
    | some content =>
      if sha256 content ≠ upload.sha256 then
        pure (some (ascii "the upload failed its checksum", 0, []))
      else if !upload.moves then pure (some (ascii "the upload could not be stored", 0, []))
      else do
        .ask (.move destination content)
        pure (some ([], upload.total, sha256 content))

/-- Writes a sidecar that is valid and small enough. -/
def writeCiArtifactRecord (run : Run) (artifact : CiArtifactRecord) : Script FileOp Unit :=
  if isValidProjectName run.project && isValidCiId run.run_id && isValidCiArtifactName artifact.name
      && decide ((serializeArtifact artifact).length ≤ kMaximumCiArtifactRecordBytes) then
    .ask (.record ⟨run, artifact.name⟩ artifact)
  else pure ()

def CiCommit.expires (commit : CiCommit) (output : CiDeclaredOutput) (created : UInt64) : UInt64 :=
  let days := if output.retention_days = 0 then commit.artifact_retention_days else output.retention_days
  let capped := if commit.artifact_max_retention_days ≠ 0 ∧ days > commit.artifact_max_retention_days then
    commit.artifact_max_retention_days else days
  if output.release then 0 else created + capped.toUInt64 * 86400

def commitOutput (commit : CiCommit) (output : CiDeclaredOutput) (created : UInt64) :
    Script FileOp Unit := do
  let kind := if output.release then CiUploadKind.kAsset else .kArtifact
  let stored ← if output.note.isEmpty then
      takeStaged sha256 commit.staged kind output.name ⟨commit.run, output.name⟩
    else pure (some (output.note, 0, []))
  match stored with
  | none => pure ()
  | some (note, bytes, digest) =>
    writeCiArtifactRecord commit.run
      { name := output.name, bytes, sha256 := digest, created_epoch_seconds := created,
        expires_epoch_seconds := commit.expires output created, note }

/-- The artifact part of commitCiRun; an undeclared output of a child ends it. -/
def commitOutputs (commit : CiCommit) (outputs : List (CiDeclaredOutput × UInt64)) :
    Script FileOp Unit :=
  match outputs with
  | [] => pure ()
  | (output, created) :: rest =>
    if (output.release && !commit.child) || (commit.child && !commit.success)
        || !isValidCiArtifactName output.name || output.name == ascii "release" then
      commitOutputs commit rest
    else if commit.child && (commit.declared != some output.name || output.release != commit.is_release) then
      pure ()
    else do
      commitOutput sha256 commit output created
      commitOutputs commit rest

def commitCiRun (commit : CiCommit) : Script FileOp Unit := commitOutputs sha256 commit commit.outputs

end

/-- A file that the removal of a pruned run deletes. -/
inductive Pruned where
  | bundle (place : Place)
  | sidecar (place : Place)

/-- What a sweep finds of a project. -/
structure SweptProject where
  pruned : List Pruned
  /-- The runs left, each with its group. -/
  runs : List (Run × Bytes)

structure CiSweep where
  now_epoch_seconds : UInt64
  max_total_bytes : UInt64
  max_project_bytes : UInt64
  keep_latest : Bool
  projects : List SweptProject

structure Entry where
  run : Run
  group : Bytes
  name : Bytes
  bytes : UInt64
  created : UInt64
  expires : UInt64
  deriving DecidableEq

def Entry.place (entry : Entry) : Place := ⟨entry.run, entry.name⟩

def removePruned (file : Pruned) : Script FileOp Unit :=
  match file with
  | .bundle place => .ask (.removeBundle place)
  | .sidecar place => .ask (.removeSidecar place)

/-- The bundles of a listing that have no sidecar. -/
def Listing.orphans (listing : Listing) : List Bytes :=
  listing.tars.filter fun base => base ∉ listing.inis

/-- Only ephemeral artifacts expire or are evicted. -/
def readEntry (run : Run) (group : Bytes) (entries : List Entry) (base : Bytes) :
    Script FileOp (List Entry) := do
  match ← .ask (.read ⟨run, base⟩) with
  | none => pure entries
  | some artifact =>
    if artifact.expires_epoch_seconds = 0 then pure entries
    else pure (entries ++ [⟨run, group, artifact.name, artifact.bytes, artifact.created_epoch_seconds,
      artifact.expires_epoch_seconds⟩])

/-- Reads the sidecars of a run and drops its bundles without one. -/
def sweepRun (entries : List Entry) (run : Run × Bytes) : Script FileOp (List Entry) := do
  let listing ← .ask (.list run.1)
  let entries ← .accumulate listing.inis entries (readEntry run.1 run.2)
  .accumulate listing.orphans () fun _ base => .ask (.removeBundle ⟨run.1, base⟩)
  pure entries

def sweepProject (entries : List Entry) (project : SweptProject) : Script FileOp (List Entry) := do
  .accumulate project.pruned () fun _ file => removePruned file
  .accumulate project.runs entries sweepRun

def deleteEntry (entry : Entry) : Script FileOp Unit := do
  .ask (.removeBundle entry.place)
  .ask (.removeSidecar entry.place)

/-- The newest group of the project that holds artifacts. -/
def newestGroup (entries : List Entry) (project : Bytes) : Option Bytes :=
  let groups := (entries.filter fun entry => entry.run.project = project).map (·.group)
  groups.foldl (fun newest group => if newest.all (· < group) then some group else newest) none

def CiSweep.keeps (sweep : CiSweep) (entries : List Entry) (entry : Entry) : Bool :=
  sweep.keep_latest && newestGroup entries entry.run.project == some entry.group

def CiSweep.expired (sweep : CiSweep) (entry : Entry) : Bool :=
  sweep.now_epoch_seconds != 0 && decide (entry.expires ≤ sweep.now_epoch_seconds)

def liveTotal (live : List Entry) : UInt64 := (live.map (·.bytes)).sum

/-- Evicts in order until the entries that count fit the budget. -/
def evict (budget : UInt64) (counted : Entry → Bool) (candidates : List Entry) (live : List Entry) :
    Script FileOp (List Entry) :=
  match candidates with
  | [] => pure live
  | entry :: rest =>
    if liveTotal (live.filter counted) ≤ budget then pure live
    else if entry ∈ live ∧ counted entry then do
      deleteEntry entry
      evict budget counted rest (live.erase entry)
    else evict budget counted rest live

def oldestFirst (a b : Entry) : Bool :=
  if a.created ≠ b.created then a.created < b.created else a.group ≤ b.group

def sweepCiArtifacts (sweep : CiSweep) : Script FileOp Unit := do
  let entries ← .accumulate sweep.projects [] sweepProject
  let kept := sweep.keeps entries
  let live ← .accumulate entries entries fun live entry =>
    if sweep.expired entry && !kept entry then do
      deleteEntry entry
      pure (live.erase entry)
    else pure live
  let sorted := entries.mergeSort oldestFirst
  let candidates := sorted.filter fun entry => !kept entry
  let live ← if sweep.max_total_bytes ≠ 0 then
      evict sweep.max_total_bytes (fun _ => true) candidates live
    else pure live
  if sweep.max_project_bytes ≠ 0 then
    let projects := sortedUnique (entries.map (·.run.project))
    .accumulate projects () fun _ project => do
      let _ ← evict sweep.max_project_bytes (fun entry => entry.run.project = project) candidates live
      pure ()
  else pure ()

end CkGit.Artifacts
