import CkGit.Artifacts.Model
import CkGit.Base.Eviction
import CkGit.Ci.Records

/-!
The retention sweep (sweepCiArtifacts in src/common/ci_store.cpp) on the run
directories of a CI store. Every removal succeeds, a directory or a file that
the sweep skips is left out, and no directory holds a name twice. A sidecar
stands under the name of its record, as writeCiArtifactRecord writes it. What
std::sort does with entries that compare equal is open.
-/
namespace CkGit.Retention
open CkGit.Base CkGit.Base.Eviction CkGit.Ci
open CkGit.Artifacts (CiArtifactRecord Run Place Entry newestGroup)

/-- A sidecar of at most kMaximumCiArtifactRecordBytes with what its text reads back to. -/
structure Sidecar where
  base : Bytes
  record : Option CiArtifactRecord
  named : ∀ artifact ∈ record, artifact.name = base

structure RunDirectory where
  id : Bytes
  /-- loadCiRun: nothing where run.ini is missing or malformed. -/
  record : Option CiRunRecord
  workflow : Bool := false
  outputs_committed : Bool := false
  incoming : Bool := false
  tars : List Bytes := []
  inis : List Sidecar := []
  distinct : (inis.map (·.base)).Nodup

structure Project where
  name : Bytes
  runs : List RunDirectory
  distinct : (runs.map (·.id)).Nodup

structure Store where
  projects : List Project
  distinct : (projects.map (·.name)).Nodup

def Project.mapRuns (project : Project) (change : RunDirectory → RunDirectory)
    (same : ∀ run, (change run).id = run.id) : Project :=
  { project with
    runs := project.runs.map change
    distinct := by simpa [Function.comp_def, same] using project.distinct }

def Project.keepRuns (project : Project) (keep : RunDirectory → Bool) : Project :=
  { project with
    runs := project.runs.filter keep
    distinct := project.distinct.sublist (List.filter_sublist.map _) }

def Store.mapProjects (store : Store) (change : Project → Project)
    (same : ∀ project, (change project).name = project.name) : Store :=
  { projects := store.projects.map change
    distinct := by simpa [Function.comp_def, same] using store.distinct }

structure CiArtifactSweepOptions where
  now_epoch_seconds : UInt64 := 0
  /-- No global budget where 0. -/
  max_total_bytes : UInt64 := 0
  /-- No budget of a project where 0. -/
  max_project_bytes : UInt64 := 0
  /-- Every run directory is kept where 0. -/
  runs_keep : UInt64 := 0
  keep_latest : Bool := true

/-- A child counts with its parent. -/
def RunDirectory.group (run : RunDirectory) : Bytes :=
  match run.record with
  | some record => if record.parent_run_id.isEmpty then run.id else record.parent_run_id
  | none => run.id

def Project.awaitsOutputs (project : Project) (group : Bytes) : Bool :=
  project.runs.any fun parent => parent.id == group && parent.workflow && !parent.outputs_committed

def RunDirectory.isActive (run : RunDirectory) : Bool :=
  run.record.all fun record => ciRunStatusIsActive record.status

def Project.active_groups (project : Project) : List Bytes :=
  (project.runs.filter fun run => run.isActive || project.awaitsOutputs run.group).map (·.group)

/-- Newest first. -/
def Project.groups (project : Project) : List Bytes :=
  (sortedUnique (project.runs.map (·.group))).reverse

def CiArtifactSweepOptions.retains (options : CiArtifactSweepOptions) (project : Project)
    (group : Bytes) : Bool :=
  decide (group ∈ project.groups.take options.runs_keep.toNat)
    || decide (group ∈ project.active_groups)

def CiArtifactSweepOptions.pruneProject (options : CiArtifactSweepOptions) (project : Project) :
    Project :=
  if options.runs_keep > 0 then project.keepRuns fun run => options.retains project run.group
  else project

theorem CiArtifactSweepOptions.pruneProject_name (options : CiArtifactSweepOptions)
    (project : Project) : (options.pruneProject project).name = project.name := by
  unfold pruneProject
  split <;> rfl

def CiArtifactSweepOptions.prune (options : CiArtifactSweepOptions) (store : Store) : Store :=
  store.mapProjects options.pruneProject options.pruneProject_name

/-- Staging of a run that has ended is dropped unless its parent still needs the results. -/
def Project.dropIncoming (project : Project) (run : RunDirectory) : RunDirectory :=
  let parent_needs_results := run.record.any fun record =>
    !record.parent_run_id.isEmpty && project.runs.any fun parent =>
      parent.id == record.parent_run_id && !parent.outputs_committed
  if (run.record.all fun record => !ciRunStatusIsActive record.status) && !parent_needs_results then
    { run with incoming := false }
  else run

def RunDirectory.hasSidecar (run : RunDirectory) (base : Bytes) : Bool :=
  run.inis.any fun ini => ini.base == base

def RunDirectory.dropOrphans (run : RunDirectory) : RunDirectory :=
  { run with tars := run.tars.filter run.hasSidecar }

def RunDirectory.orphans (run : RunDirectory) : List Bytes :=
  run.tars.filter fun base => !run.hasSidecar base

theorem Project.dropIncoming_id (project : Project) (run : RunDirectory) :
    (project.dropIncoming run).id = run.id := by
  unfold dropIncoming
  dsimp only
  split <;> rfl

def Project.tidy (project : Project) : Project :=
  project.mapRuns (fun run => (project.dropIncoming run).dropOrphans) project.dropIncoming_id

def Store.tidy (store : Store) : Store := store.mapProjects Project.tidy fun _ => rfl

def Store.orphans (store : Store) : Nat :=
  (store.projects.map fun project => (project.runs.map fun run => run.orphans.length).sum).sum

def RunDirectory.artifacts (project : Bytes) (run : RunDirectory) : List Entry :=
  (run.inis.filterMap (·.record)).map fun artifact =>
    ⟨⟨project, run.id⟩, run.group, artifact.name, artifact.bytes, artifact.created_epoch_seconds,
      artifact.expires_epoch_seconds⟩

def Store.artifacts (store : Store) : List Entry :=
  store.projects.flatMap fun project => project.runs.flatMap fun run => run.artifacts project.name

/-- Durable artifacts (a release asset) expire at 0. -/
def Store.entries (store : Store) : List Entry :=
  store.artifacts.filter fun entry => entry.expires ≠ 0

def RunDirectory.without (project : Bytes) (place : Place) (run : RunDirectory) : RunDirectory :=
  if place.run = ⟨project, run.id⟩ then
    { run with
      tars := run.tars.filter (· ≠ place.name)
      inis := run.inis.filter fun ini => ini.base ≠ place.name
      distinct := run.distinct.sublist (List.filter_sublist.map _) }
  else run

theorem RunDirectory.without_id (project : Bytes) (place : Place) (run : RunDirectory) :
    (run.without project place).id = run.id := by
  unfold without
  split <;> rfl

/-- The bundle and the sidecar of an artifact are removed. -/
def Store.without (store : Store) (place : Place) : Store :=
  store.mapProjects
    (fun project =>
      project.mapRuns (·.without project.name place) (·.without_id project.name place))
    fun _ => rfl

inductive Scope where
  | all
  | project (name : Bytes)
  deriving DecidableEq

def Scope.counts (scope : Scope) (entry : Entry) : Bool :=
  match scope with
  | .all => true
  | .project name => entry.run.project == name

inductive Cause where
  | timer
  | budget (scope : Scope)
  deriving DecidableEq

/-- A removal with the store it found; the sweep itself keeps no record of it. -/
structure Removal where
  cause : Cause
  entry : Entry
  before : Store

structure Sweep where
  store : Store
  removed : Nat
  /-- The entries that are not evicted. -/
  live : List Entry
  log : List Removal

def deleteEntry (cause : Cause) (sweep : Sweep) (entry : Entry) : Sweep :=
  { store := sweep.store.without entry.place
    removed := sweep.removed + 1
    live := sweep.live.filter fun other => other.place ≠ entry.place
    log := sweep.log ++ [⟨cause, entry, sweep.store⟩] }

/-- The sum is kept in 64 bits. -/
def liveTotal (scope : Scope) (live : List Entry) : UInt64 :=
  ((live.filter scope.counts).map (·.bytes)).sum

def earlier (a b : Entry) : Bool :=
  if a.created ≠ b.created then a.created < b.created else a.group < b.group

/-- What std::sort promises. -/
structure Sorting where
  sort : List Entry → List Entry
  perm : ∀ entries, (sort entries).Perm entries
  sorted : ∀ entries, (sort entries).Pairwise fun a b => ¬ earlier b a

def CiArtifactSweepOptions.expired (options : CiArtifactSweepOptions) (entry : Entry) : Bool :=
  entry.expires != 0 && options.now_epoch_seconds != 0
    && decide (entry.expires ≤ options.now_epoch_seconds)

def CiArtifactSweepOptions.keeps (options : CiArtifactSweepOptions) (entries : List Entry)
    (entry : Entry) : Bool :=
  options.keep_latest && newestGroup entries entry.run.project == some entry.group

def overBudget (budget : UInt64) (scope : Scope) (sweep : Sweep) : Bool :=
  decide (budget < liveTotal scope sweep.live)

def evictable (kept : Entry → Bool) (scope : Scope) (sweep : Sweep) (entry : Entry) : Bool :=
  decide (entry ∈ sweep.live) && !kept entry && scope.counts entry

/-- Oldest first, protected artifacts never. -/
def evictOver (kept : Entry → Bool) (budget : UInt64) (scope : Scope) (candidates : List Entry)
    (sweep : Sweep) : Sweep :=
  evict (overBudget budget scope) (evictable kept scope) (deleteEntry (.budget scope)) candidates sweep

def expire (options : CiArtifactSweepOptions) (kept : Entry → Bool) (entries : List Entry)
    (sweep : Sweep) : Sweep :=
  entries.foldl
    (visit (fun _ entry => options.expired entry && !kept entry) (deleteEntry .timer)) sweep

def sweepCiArtifacts (sorting : Sorting) (options : CiArtifactSweepOptions) (store : Store) : Sweep :=
  let pruned := options.prune store
  let entries := pruned.entries
  let kept := options.keeps entries
  let sweep := expire options kept entries
    { store := pruned.tidy, removed := pruned.orphans, live := entries, log := [] }
  let entries := sorting.sort entries
  let sweep := if options.max_total_bytes ≠ 0 then
      evictOver kept options.max_total_bytes .all entries sweep
    else sweep
  if options.max_project_bytes ≠ 0 then
    (sortedUnique (entries.map (·.run.project))).foldl
      (fun sweep project => evictOver kept options.max_project_bytes (.project project) entries sweep)
      sweep
  else sweep

end CkGit.Retention
