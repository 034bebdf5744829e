import CkGit.Retention.Model
import Mathlib.Data.Finset.Card
import Mathlib.Order.Basic

/-!
What each step of the retention sweep does to the directories, the artifacts
and the bundles of a store.
-/
namespace CkGit.Retention
open CkGit.Base CkGit.Base.Eviction CkGit.Ci
open CkGit.Artifacts (CiArtifactRecord Run Place Entry newestGroup)

/-- The groups of the project that are newer than this one. -/
def Project.newer (project : Project) (group : Bytes) : Finset Bytes :=
  (project.runs.map (·.group)).toFinset.filter (group < ·)

/-- A run of the group is active, or the outputs of its workflow are not committed. -/
def Project.Active (project : Project) (group : Bytes) : Prop :=
  ∃ run ∈ project.runs, run.group = group ∧ (run.isActive ∨ project.awaitsOutputs group)

def Project.Retains (project : Project) (runs_keep : UInt64) (group : Bytes) : Prop :=
  runs_keep = 0 ∨ (project.newer group).card < runs_keep.toNat ∨ project.Active group

instance (project : Project) (group : Bytes) : Decidable (project.Active group) :=
  inferInstanceAs (Decidable (∃ run ∈ project.runs, _))

instance (project : Project) (runs_keep : UInt64) (group : Bytes) :
    Decidable (project.Retains runs_keep group) :=
  inferInstanceAs (Decidable (_ ∨ _))

theorem mem_take_descending {groups : List Bytes} (descending : groups.Pairwise fun a b => b < a)
    {group : Bytes} (member : group ∈ groups) (count : Nat) :
    group ∈ groups.take count ↔ (groups.filter fun other => group < other).length < count := by
  induction groups generalizing count with
  | nil => exact absurd member List.not_mem_nil
  | cons first rest ih =>
    obtain ⟨above, rest_descending⟩ := List.pairwise_cons.mp descending
    cases count with
    | zero => simp
    | succ count =>
      rw [List.take_succ_cons, List.mem_cons]
      rcases List.mem_cons.mp member with rfl | member
      · have none_newer : (group :: rest).filter (fun other => decide (group < other)) = [] := by
          rw [List.filter_eq_nil_iff]
          intro other found
          rcases List.mem_cons.mp found with rfl | found
          · simp
          · simpa using List.le_of_lt (above other found)
        simp [none_newer]
      · have below := above group member
        have different : group ≠ first := fun same => absurd below (same ▸ List.lt_irrefl first)
        rw [List.filter_cons_of_pos (by simpa using below), List.length_cons, ih rest_descending member]
        simp [different]

theorem groups_descending (project : Project) :
    project.groups.Pairwise fun a b => b < a := by
  have sorted : (sortedUnique (project.runs.map (·.group))).Pairwise (· ≤ ·) :=
    (List.pairwise_insertionSort (· ≤ ·) _).sublist (List.dedup_sublist _)
  have distinct : (sortedUnique (project.runs.map (·.group))).Nodup := List.nodup_dedup _
  rw [Project.groups, List.pairwise_reverse]
  refine (sorted.and distinct).imp fun ⟨ordered, different⟩ => ?_
  exact (List.le_iff_lt_or_eq.mp ordered).resolve_right different

theorem mem_groups {project : Project} {run : RunDirectory} (member : run ∈ project.runs) :
    run.group ∈ project.groups := by
  rw [Project.groups, List.mem_reverse, mem_sortedUnique]
  exact List.mem_map_of_mem member

theorem newer_card (project : Project) (group : Bytes) :
    (project.newer group).card = (project.groups.filter fun other => group < other).length := by
  have distinct : (project.groups.filter fun other => group < other).Nodup :=
    (List.nodup_reverse.mpr (List.nodup_dedup _)).filter _
  rw [← List.toFinset_card_of_nodup distinct]
  congr 1
  ext other
  simp [Project.newer, Project.groups, mem_sortedUnique]

theorem mem_active_groups (project : Project) (group : Bytes) :
    group ∈ project.active_groups ↔ project.Active group := by
  simp only [Project.active_groups, Project.Active, List.mem_map, List.mem_filter, Bool.or_eq_true]
  constructor
  · rintro ⟨run, ⟨member, active⟩, rfl⟩
    exact ⟨run, member, rfl, active⟩
  · rintro ⟨run, member, rfl, active⟩
    exact ⟨run, ⟨member, active⟩, rfl⟩

theorem retains_iff (options : CiArtifactSweepOptions) {project : Project} {run : RunDirectory}
    (member : run ∈ project.runs) (counted : 0 < options.runs_keep) :
    options.retains project run.group = true ↔ project.Retains options.runs_keep run.group := by
  have nonzero : options.runs_keep ≠ 0 := fun zero => by simp [zero] at counted
  simp only [CiArtifactSweepOptions.retains, Bool.or_eq_true, decide_eq_true_eq, Project.Retains,
    nonzero, false_or, newer_card, mem_active_groups,
    mem_take_descending (groups_descending project) (mem_groups member)]

/-- The run directories of each project. -/
def Store.directories (store : Store) : List (Bytes × List Bytes) :=
  store.projects.map fun project => (project.name, project.runs.map (·.id))

theorem prune_directories (options : CiArtifactSweepOptions) (store : Store) :
    (options.prune store).directories = store.projects.map fun project =>
      (project.name, (project.runs.filter fun run =>
        project.Retains options.runs_keep run.group).map (·.id)) := by
  simp only [Store.directories, CiArtifactSweepOptions.prune, Store.mapProjects, List.map_map]
  refine List.map_congr_left fun project _ => ?_
  simp only [Function.comp_apply, CiArtifactSweepOptions.pruneProject]
  by_cases counted : options.runs_keep > 0
  · rw [if_pos counted]
    simp only [Project.keepRuns]
    congr 2
    refine List.filter_congr fun run member => ?_
    rw [← Bool.coe_iff_coe, retains_iff options member counted, decide_eq_true_eq]
  · have zero : options.runs_keep = 0 := UInt64.toNat_inj.mp (by
      have := UInt64.lt_iff_toNat_lt.not.mp counted
      simpa using this)
    simp [zero, Project.Retains]

theorem tidy_directories (store : Store) : store.tidy.directories = store.directories := by
  simp [Store.directories, Store.tidy, Store.mapProjects, Project.tidy, Project.mapRuns,
    RunDirectory.dropOrphans, Project.dropIncoming_id, Function.comp_def]

theorem without_directories (store : Store) (place : Place) :
    (store.without place).directories = store.directories := by
  simp [Store.directories, Store.without, Store.mapProjects, Project.mapRuns,
    RunDirectory.without_id, Function.comp_def]

theorem mem_artifacts {store : Store} {entry : Entry} :
    entry ∈ store.artifacts ↔ ∃ project ∈ store.projects, ∃ run ∈ project.runs,
      entry ∈ run.artifacts project.name := by
  simp [Store.artifacts]

theorem run_artifacts {run : RunDirectory} {project : Bytes} {entry : Entry}
    (member : entry ∈ run.artifacts project) :
    entry.run = ⟨project, run.id⟩ ∧ ∃ ini ∈ run.inis, ini.base = entry.name ∧
      ∃ artifact, ini.record = some artifact ∧ entry = ⟨⟨project, run.id⟩, run.group, artifact.name,
        artifact.bytes, artifact.created_epoch_seconds, artifact.expires_epoch_seconds⟩ := by
  simp only [RunDirectory.artifacts, List.mem_map, List.mem_filterMap] at member
  obtain ⟨artifact, ⟨ini, listed, read⟩, rfl⟩ := member
  exact ⟨rfl, ini, listed, (ini.named artifact read).symm, artifact, read, rfl⟩

/-- Project and run of a place are one directory. -/
theorem same_directory {store : Store} {project other_project : Project} {run other_run : RunDirectory}
    (project_in : project ∈ store.projects) (other_project_in : other_project ∈ store.projects)
    (run_in : run ∈ project.runs) (other_run_in : other_run ∈ other_project.runs)
    (same : (⟨project.name, run.id⟩ : Run) = ⟨other_project.name, other_run.id⟩) :
    project = other_project ∧ run = other_run := by
  obtain ⟨project_same, run_same⟩ := Run.mk.inj same
  have projects := List.inj_on_of_nodup_map store.distinct project_in other_project_in project_same
  subst projects
  exact ⟨rfl, List.inj_on_of_nodup_map project.distinct run_in other_run_in run_same⟩

theorem artifact_unique {store : Store} {entry other : Entry} (entry_in : entry ∈ store.artifacts)
    (other_in : other ∈ store.artifacts) (same : entry.place = other.place) : entry = other := by
  obtain ⟨project, project_in, run, run_in, found⟩ := mem_artifacts.mp entry_in
  obtain ⟨project', project_in', run', run_in', found'⟩ := mem_artifacts.mp other_in
  obtain ⟨at_run, ini, listed, named, artifact, read, rfl⟩ := run_artifacts found
  obtain ⟨at_run', ini', listed', named', artifact', read', rfl⟩ := run_artifacts found'
  obtain ⟨run_same, name_same⟩ := Place.mk.inj same
  obtain ⟨rfl, rfl⟩ := same_directory project_in project_in' run_in run_in' run_same
  have inis := List.inj_on_of_nodup_map run.distinct listed listed' (named.trans (name_same.trans named'.symm))
  subst inis
  rw [read] at read'
  cases read'
  rfl

theorem tidy_artifacts (store : Store) : store.tidy.artifacts = store.artifacts := by
  have unchanged (project : Project) (run : RunDirectory) :
      (project.dropIncoming run).dropOrphans.artifacts project.name = run.artifacts project.name := by
    unfold Project.dropIncoming
    dsimp only
    split <;> rfl
  simp only [Store.artifacts, Store.tidy, Store.mapProjects, Project.tidy, Project.mapRuns,
    List.flatMap_map, unchanged]

theorem without_sidecars (place : Place) (inis : List Sidecar) (describe : CiArtifactRecord → Entry)
    (at_place : ∀ artifact, (describe artifact).place = ⟨place.run, artifact.name⟩) :
    ((inis.filter fun ini => ini.base ≠ place.name).filterMap (·.record)).map describe
      = ((inis.filterMap (·.record)).map describe).filter fun entry => entry.place ≠ place := by
  induction inis with
  | nil => rfl
  | cons ini rest ih =>
    have removed (artifact : CiArtifactRecord) (read : ini.record = some artifact) :
        (describe artifact).place ≠ place ↔ ini.base ≠ place.name := by
      rw [at_place, ini.named artifact read]
      exact not_congr ⟨fun same => congrArg Place.name same, fun same => by rw [same]⟩
    cases read : ini.record with
    | none =>
      by_cases here : ini.base = place.name
      · simpa [List.filter_cons, List.filterMap_cons, read, here] using ih
      · simpa [List.filter_cons, List.filterMap_cons, read, here] using ih
    | some artifact =>
      by_cases here : ini.base = place.name
      · have gone := (removed artifact read).not.mpr (not_not.mpr here)
        simpa [List.filter_cons, List.filterMap_cons, read, here, not_not.mp gone] using ih
      · have stays := (removed artifact read).mpr here
        simpa [List.filter_cons, List.filterMap_cons, read, here, stays] using ih

theorem run_without_artifacts (run : RunDirectory) (project : Bytes) (place : Place) :
    (run.without project place).artifacts project
      = (run.artifacts project).filter fun entry => entry.place ≠ place := by
  unfold RunDirectory.without
  split
  · next here => exact without_sidecars place run.inis _ fun artifact => by rw [here]; rfl
  · next elsewhere =>
    refine (List.filter_eq_self.mpr fun entry member => ?_).symm
    rw [decide_eq_true_eq]
    intro same
    exact elsewhere (same ▸ (run_artifacts member).1)

theorem without_artifacts (store : Store) (place : Place) :
    (store.without place).artifacts = store.artifacts.filter fun entry => entry.place ≠ place := by
  simp only [Store.artifacts, Store.without, Store.mapProjects, Project.mapRuns, List.flatMap_map,
    run_without_artifacts, List.filter_flatMap]

def RunDirectory.bundles (project : Bytes) (run : RunDirectory) : List Place :=
  run.tars.map fun name => ⟨⟨project, run.id⟩, name⟩

def Store.bundles (store : Store) : List Place :=
  store.projects.flatMap fun project => project.runs.flatMap fun run => run.bundles project.name

theorem mem_bundles {store : Store} {place : Place} :
    place ∈ store.bundles ↔ ∃ project ∈ store.projects, ∃ run ∈ project.runs,
      place ∈ run.bundles project.name := by
  simp [Store.bundles]

theorem run_without_bundles (run : RunDirectory) (project : Bytes) (place : Place) :
    (run.without project place).bundles project
      = (run.bundles project).filter fun other => other ≠ place := by
  unfold RunDirectory.without
  split
  · next here =>
    simp only [RunDirectory.bundles, List.filter_map]
    refine congrArg (List.map _) (List.filter_congr fun name _ => ?_)
    rw [Function.comp_apply, decide_eq_decide]
    exact not_congr ⟨fun same => by rw [same, ← here], fun same => congrArg Place.name same⟩
  · next elsewhere =>
    refine (List.filter_eq_self.mpr fun other member => ?_).symm
    rw [decide_eq_true_eq]
    rintro rfl
    obtain ⟨name, _, rfl⟩ := List.mem_map.mp member
    exact elsewhere rfl

theorem without_bundles (store : Store) (place : Place) :
    (store.without place).bundles = store.bundles.filter fun other => other ≠ place := by
  simp only [Store.bundles, Store.without, Store.mapProjects, Project.mapRuns, List.flatMap_map,
    run_without_bundles, List.filter_flatMap]

/-- The places with a sidecar, readable or not. -/
def Store.sidecars (store : Store) : List Place :=
  store.projects.flatMap fun project => project.runs.flatMap fun run =>
    run.inis.map fun ini => ⟨⟨project.name, run.id⟩, ini.base⟩

theorem mem_sidecars {store : Store} {place : Place} :
    place ∈ store.sidecars ↔ ∃ project ∈ store.projects, ∃ run ∈ project.runs, ∃ ini ∈ run.inis,
      (⟨⟨project.name, run.id⟩, ini.base⟩ : Place) = place := by
  simp [Store.sidecars]

theorem dropIncoming_files (project : Project) (run : RunDirectory) :
    (project.dropIncoming run).tars = run.tars ∧ (project.dropIncoming run).inis = run.inis := by
  unfold Project.dropIncoming
  dsimp only
  split <;> exact ⟨rfl, rfl⟩

theorem tidy_bundles (project : Project) (run : RunDirectory) :
    ((project.dropIncoming run).dropOrphans.bundles project.name)
      = (run.tars.filter run.hasSidecar).map fun name => ⟨⟨project.name, run.id⟩, name⟩ := by
  obtain ⟨tars, inis⟩ := dropIncoming_files project run
  have sidecars : (project.dropIncoming run).hasSidecar = run.hasSidecar := by
    funext base
    rw [RunDirectory.hasSidecar, RunDirectory.hasSidecar, inis]
  show ((project.dropIncoming run).tars.filter (project.dropIncoming run).hasSidecar).map
    (fun name => (⟨⟨project.name, (project.dropIncoming run).id⟩, name⟩ : Place)) = _
  rw [tars, sidecars, Project.dropIncoming_id]

/-- Exactly the bundles without a sidecar are dropped as leftovers. -/
theorem mem_tidy_bundles {store : Store} {place : Place} :
    place ∈ store.tidy.bundles ↔ place ∈ store.bundles ∧ place ∈ store.sidecars := by
  have tidied : place ∈ store.tidy.bundles ↔ ∃ project ∈ store.projects, ∃ run ∈ project.runs,
      place ∈ (project.dropIncoming run).dropOrphans.bundles project.name := by
    simp [Store.bundles, Store.tidy, Store.mapProjects, Project.tidy, Project.mapRuns]
  rw [tidied, mem_bundles, mem_sidecars]
  constructor
  · rintro ⟨project, project_in, run, run_in, found⟩
    rw [tidy_bundles] at found
    obtain ⟨name, kept, rfl⟩ := List.mem_map.mp found
    obtain ⟨stored, beside⟩ := List.mem_filter.mp kept
    obtain ⟨ini, listed, same⟩ := List.any_eq_true.mp beside
    exact ⟨⟨project, project_in, run, run_in, List.mem_map_of_mem stored⟩,
      project, project_in, run, run_in, ini, listed, by rw [beq_iff_eq.mp same]⟩
  · rintro ⟨⟨project, project_in, run, run_in, found⟩, project', project_in', run', run_in', ini, listed, same⟩
    obtain ⟨name, stored, rfl⟩ := List.mem_map.mp found
    obtain ⟨run_same, name_same⟩ := Place.mk.inj same
    obtain ⟨rfl, rfl⟩ := same_directory project_in' project_in run_in' run_in run_same
    refine ⟨project', project_in, run', run_in, ?_⟩
    rw [tidy_bundles]
    exact List.mem_map_of_mem (List.mem_filter.mpr ⟨stored, List.any_eq_true.mpr ⟨ini, listed, by simp [name_same]⟩⟩)

end CkGit.Retention
