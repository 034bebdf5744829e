import CkGit.Retention.Files
import Mathlib.Algebra.Order.BigOperators.Group.List
import Mathlib.Algebra.Order.Group.Nat

/-!
The law of the retention sweep. What a sweep has removed is recorded with the
store each removal found; every removal is justified there, and the removals of
one rule leave what the others rest on.
-/
namespace CkGit.Retention
open CkGit.Base CkGit.Base.Eviction CkGit.Ci
open CkGit.Artifacts (CiArtifactRecord Run Place Entry newestGroup)

def bytesOf (scope : Scope) (live : List Entry) : Nat :=
  ((live.filter scope.counts).map (·.bytes.toNat)).sum

def Store.bytes (store : Store) (scope : Scope) : Nat := bytesOf scope store.entries

theorem sum_toNat (sizes : List UInt64) :
    sizes.sum.toNat = (sizes.map (·.toNat)).sum % 2 ^ 64 := by
  induction sizes with
  | nil => rfl
  | cons size rest ih =>
    rw [List.sum_cons, UInt64.toNat_add, ih, List.map_cons, List.sum_cons]
    omega

theorem liveTotal_toNat (scope : Scope) (live : List Entry) :
    (liveTotal scope live).toNat = bytesOf scope live % 2 ^ 64 := by
  rw [liveTotal, sum_toNat, List.map_map]
  rfl

theorem bytesOf_mono {scope : Scope} {live rest : List Entry} (fewer : live.Sublist rest) :
    bytesOf scope live ≤ bytesOf scope rest :=
  ((fewer.filter _).map _).sum_le_sum fun _ _ => Nat.zero_le _

theorem bytesOf_all (scope : Scope) (live : List Entry) : bytesOf scope live ≤ bytesOf .all live := by
  have everything : live.filter Scope.all.counts = live := List.filter_eq_self.mpr fun _ _ => rfl
  rw [bytesOf, bytesOf, everything]
  exact (List.filter_sublist.map _).sum_le_sum fun _ _ => Nat.zero_le _

/-- The artifact is of the newest group of its project that holds ephemeral artifacts. -/
def Store.Protects (store : Store) (entry : Entry) : Prop :=
  ∀ other ∈ store.entries, other.run.project = entry.run.project → other.group ≤ entry.group

/-- The greatest of the groups seen, if there is one. -/
def Greatest (groups : List Bytes) : Option Bytes → Prop
  | none => groups = []
  | some newest => newest ∈ groups ∧ ∀ group ∈ groups, group ≤ newest

theorem Greatest.step {seen : List Bytes} {newest : Option Bytes} (h : Greatest seen newest)
    (group : Bytes) :
    Greatest (seen ++ [group]) (if newest.all (· < group) then some group else newest) := by
  cases newest with
  | none =>
    have nothing : seen = [] := h
    simp [nothing, Greatest]
  | some first =>
    obtain ⟨member, above⟩ := h
    by_cases later : first < group
    · rw [if_pos (by simpa using later)]
      refine ⟨by simp, fun other found => ?_⟩
      rcases List.mem_append.mp found with found | found
      · exact List.le_trans (above other found) (List.le_of_lt later)
      · obtain rfl := List.mem_singleton.mp found
        exact List.le_refl _
    · rw [if_neg (by simpa using later)]
      refine ⟨List.mem_append_left _ member, fun other found => ?_⟩
      rcases List.mem_append.mp found with found | found
      · exact above other found
      · rw [List.mem_singleton.mp found]
        exact List.not_lt.mp later

def groupsOf (entries : List Entry) (project : Bytes) : List Bytes :=
  (entries.filter fun entry => entry.run.project = project).map (·.group)

theorem newestGroup_greatest (entries : List Entry) (project : Bytes) :
    Greatest (groupsOf entries project) (newestGroup entries project) := by
  have run (groups seen : List Bytes) (newest : Option Bytes) (h : Greatest seen newest) :
      Greatest (seen ++ groups) (groups.foldl
        (fun newest group => if newest.all (· < group) then some group else newest) newest) := by
    induction groups generalizing seen newest with
    | nil => rwa [List.append_nil]
    | cons group rest ih =>
      rw [List.foldl_cons, ← List.singleton_append, ← List.append_assoc]
      exact ih (seen ++ [group]) _ (h.step group)
  exact run (groupsOf entries project) [] none rfl

/-- What keep-latest protects. -/
theorem keeps_iff {options : CiArtifactSweepOptions} {store : Store} {entry : Entry}
    (latest : options.keep_latest = true) (member : entry ∈ store.entries) :
    options.keeps store.entries entry = true ↔ store.Protects entry := by
  have listed (other : Entry) (other_in : other ∈ store.entries)
      (same : other.run.project = entry.run.project) :
      other.group ∈ groupsOf store.entries entry.run.project :=
    List.mem_map.mpr ⟨other, List.mem_filter.mpr ⟨other_in, by simpa using same⟩, rfl⟩
  have greatest := newestGroup_greatest store.entries entry.run.project
  simp only [CiArtifactSweepOptions.keeps, latest, Bool.true_and, beq_iff_eq]
  constructor
  · intro newest other other_in same
    rw [newest] at greatest
    exact greatest.2 other.group (listed other other_in same)
  · intro protects
    have own := listed entry member rfl
    cases found : newestGroup store.entries entry.run.project with
    | none =>
      rw [found] at greatest
      have nothing : groupsOf store.entries entry.run.project = [] := greatest
      rw [nothing] at own
      exact absurd own List.not_mem_nil
    | some newest =>
      rw [found] at greatest
      obtain ⟨holder, above⟩ := greatest
      obtain ⟨other, other_in, rfl⟩ := List.mem_map.mp holder
      obtain ⟨other_listed, same⟩ := List.mem_filter.mp other_in
      rw [List.le_antisymm (protects other other_listed (by simpa using same)) (above entry.group own)]

def CiArtifactSweepOptions.budget (options : CiArtifactSweepOptions) (scope : Scope) : UInt64 :=
  match scope with
  | .all => options.max_total_bytes
  | .project _ => options.max_project_bytes

/-- A removal by the timer is of an expired artifact; one by a budget takes an oldest unprotected
artifact of the scope while the scope is over it. -/
def CiArtifactSweepOptions.Justifies (options : CiArtifactSweepOptions) (kept : Entry → Prop)
    (removal : Removal) : Prop :=
  match removal.cause with
  | .timer => options.now_epoch_seconds ≠ 0 ∧ removal.entry.expires ≤ options.now_epoch_seconds
  | .budget scope => options.budget scope ≠ 0 ∧ scope.counts removal.entry
      ∧ removal.entry ∈ removal.before.entries
      ∧ (options.budget scope).toNat < removal.before.bytes scope
      ∧ ∀ other ∈ removal.before.entries, scope.counts other → ¬ kept other →
        ¬ other.created < removal.entry.created

def Sweep.removedPlaces (sweep : Sweep) : List Place := sweep.log.map (·.entry.place)

/-- What holds after each removal of a sweep that began with this store. -/
structure Sound (options : CiArtifactSweepOptions) (kept : Entry → Prop) (start : Store)
    (sweep : Sweep) : Prop where
  live : sweep.live = sweep.store.entries
  artifacts : sweep.store.artifacts
    = start.artifacts.filter fun entry => entry.place ∉ sweep.removedPlaces
  bundles : sweep.store.bundles = start.bundles.filter fun place => place ∉ sweep.removedPlaces
  directories : sweep.store.directories = start.directories
  removals : ∀ removal ∈ sweep.log, removal.entry ∈ start.entries ∧ ¬ kept removal.entry
    ∧ removal.before.artifacts ⊆ start.artifacts
    ∧ sweep.store.artifacts ⊆ removal.before.artifacts ∧ options.Justifies kept removal

variable {options : CiArtifactSweepOptions} {kept : Entry → Prop} {start : Store}

theorem without_entries (store : Store) (place : Place) :
    (store.without place).entries = store.entries.filter fun entry => entry.place ≠ place := by
  rw [Store.entries, Store.entries, without_artifacts, List.filter_comm]

theorem Sound.live_sublist {sweep : Sweep} (sound : Sound options kept start sweep) :
    sweep.live.Sublist start.entries := by
  rw [sound.live, Store.entries, Store.entries, sound.artifacts]
  exact List.filter_sublist.filter _

theorem Sound.deleteEntry {sweep : Sweep} {cause : Cause} {entry : Entry}
    (sound : Sound options kept start sweep) (listed : entry ∈ start.entries) (open_to : ¬ kept entry)
    (justified : options.Justifies kept ⟨cause, entry, sweep.store⟩) :
    Sound options kept start (deleteEntry cause sweep entry) := by
  have places : (Retention.deleteEntry cause sweep entry).removedPlaces
      = sweep.removedPlaces ++ [entry.place] := by
    simp [Sweep.removedPlaces, Retention.deleteEntry]
  have fewer : (sweep.store.without entry.place).artifacts ⊆ sweep.store.artifacts := by
    rw [without_artifacts]
    exact List.filter_subset_self _
  refine ⟨?_, ?_, ?_, (without_directories _ _).trans sound.directories, ?_⟩
  · rw [Retention.deleteEntry, without_entries, sound.live]
  · rw [places]
    simp only [Retention.deleteEntry, without_artifacts, sound.artifacts, List.filter_filter]
    refine List.filter_congr fun other _ => ?_
    rw [Bool.eq_iff_iff]
    simp [and_comm]
  · rw [places]
    simp only [Retention.deleteEntry, without_bundles, sound.bundles, List.filter_filter]
    refine List.filter_congr fun other _ => ?_
    rw [Bool.eq_iff_iff]
    simp [and_comm]
  · intro removal member
    rcases List.mem_append.mp member with member | member
    · obtain ⟨from_start, unkept, within, remains, reason⟩ := sound.removals removal member
      exact ⟨from_start, unkept, within, List.Subset.trans fewer remains, reason⟩
    · rw [List.mem_singleton.mp member]
      refine ⟨listed, open_to, ?_, fewer, justified⟩
      rw [sound.artifacts]
      exact List.filter_subset_self _

theorem Sound.init (options : CiArtifactSweepOptions) (kept : Entry → Prop) (store : Store)
    (removed : Nat) : Sound options kept store ⟨store, removed, store.entries, []⟩ where
  live := rfl
  artifacts := by simp [Sweep.removedPlaces]
  bundles := by simp [Sweep.removedPlaces]
  directories := rfl
  removals := by simp

variable {keep : Entry → Bool} (decides : ∀ entry ∈ start.entries, (keep entry = true ↔ kept entry))
include decides

theorem Sound.expire {sweep : Sweep} (entries : List Entry) (listed : entries ⊆ start.entries)
    (sound : Sound options kept start sweep) :
    Sound options kept start (expire options keep entries sweep) := by
  unfold Retention.expire
  induction entries generalizing sweep with
  | nil => exact sound
  | cons entry rest ih =>
    rw [List.foldl_cons]
    refine ih (List.subset_of_cons_subset listed) ?_
    unfold visit
    split
    · next due =>
      simp only [CiArtifactSweepOptions.expired, Bool.and_eq_true, bne_iff_ne, ne_eq,
        decide_eq_true_eq, Bool.not_eq_true'] at due
      obtain ⟨⟨⟨-, timed⟩, past⟩, unkept⟩ := due
      have member := listed List.mem_cons_self
      exact sound.deleteEntry member (by simp [← decides entry member, unkept]) ⟨timed, past⟩
    · exact sound

omit decides in
theorem evictable_kept (scope : Scope) (sweep : Sweep) (entry other : Entry)
    (out : ¬ evictable keep scope sweep other = true) :
    ¬ evictable keep scope (deleteEntry (.budget scope) sweep entry) other = true := by
  simp only [evictable, Bool.and_eq_true, decide_eq_true_eq, deleteEntry, List.mem_filter] at out ⊢
  exact fun ⟨⟨⟨member, _⟩, unkept⟩, counted⟩ => out ⟨⟨member, unkept⟩, counted⟩

omit decides in
theorem evictable_spent (scope : Scope) (sweep : Sweep) (entry : Entry) :
    ¬ evictable keep scope (deleteEntry (.budget scope) sweep entry) entry = true := by
  simp [evictable, deleteEntry]

theorem Sound.evictOver {sweep : Sweep} (sorting : Sorting) (scope : Scope)
    (limited : options.budget scope ≠ 0) (sound : Sound options kept start sweep) :
    Sound options kept start
      (evictOver keep (options.budget scope) scope (sorting.sort start.entries) sweep) := by
  refine evict_ordered (r := fun a b : Entry => a.created < b.created)
    (evictable_kept scope) (evictable_spent scope) ?_ (fun a => UInt64.lt_irrefl a.created) sound ?_
  · refine (sorting.sorted start.entries).imp fun {a b} ordered younger => ordered ?_
    have different : b.created ≠ a.created := fun same => UInt64.lt_irrefl _ (same ▸ younger)
    simpa [earlier, different] using younger
  · intro current entry member sound exceeded eligible oldest
    simp only [overBudget, evictable, Bool.and_eq_true, decide_eq_true_eq, Bool.not_eq_true'] at exceeded eligible
    obtain ⟨⟨alive, unkept⟩, counted⟩ := eligible
    have listed := (sorting.perm start.entries).mem_iff.mp member
    refine sound.deleteEntry listed (by simp [← decides entry listed, unkept])
      ⟨limited, counted, sound.live ▸ alive, ?_, ?_⟩
    · have above := UInt64.lt_iff_toNat_lt.mp exceeded
      rw [liveTotal_toNat, sound.live] at above
      exact Nat.lt_of_lt_of_le above (Nat.mod_le _ _)
    · intro other other_in other_counts other_unkept younger
      have other_live : other ∈ current.live := sound.live ▸ other_in
      have other_listed := sound.live_sublist.subset other_live
      refine oldest other ((sorting.perm start.entries).mem_iff.mpr other_listed) younger ?_
      have other_free : keep other = false :=
        Bool.eq_false_iff.mpr fun held => other_unkept ((decides other other_listed).mp held)
      simp [evictable, other_live, other_free, other_counts]

omit decides in
/-- The scope is within its budget, or only protected entries of it are left. -/
def Settled (kept : Entry → Prop) (budget : UInt64) (scope : Scope) (live : List Entry) : Prop :=
  bytesOf scope live ≤ budget.toNat ∨ ∀ entry ∈ live, scope.counts entry → kept entry

omit decides in
theorem Settled.mono {budget : UInt64} {scope : Scope} {live rest : List Entry}
    (settled : Settled kept budget scope rest) (fewer : live.Sublist rest) :
    Settled kept budget scope live :=
  settled.imp (Nat.le_trans (bytesOf_mono fewer)) fun only entry member =>
    only entry (fewer.subset member)

omit decides in
theorem evictOver_live (budget : UInt64) (scope : Scope) (candidates : List Entry) (sweep : Sweep) :
    (evictOver keep budget scope candidates sweep).live.Sublist sweep.live :=
  evict_invariant (P := fun current : Sweep => current.live.Sublist sweep.live) (List.Sublist.refl _)
    fun _ _ _ fewer _ _ => List.filter_sublist.trans fewer

theorem evictOver_settled {sweep : Sweep} (sorting : Sorting) (scope : Scope)
    (limited : options.budget scope ≠ 0) (small : start.bytes .all < 2 ^ 64)
    (sound : Sound options kept start sweep) :
    Settled kept (options.budget scope) scope
      (evictOver keep (options.budget scope) scope (sorting.sort start.entries) sweep).live := by
  have fewer := (sound.evictOver decides sorting scope limited).live_sublist
  have ended : overBudget (options.budget scope) scope
        (evictOver keep (options.budget scope) scope (sorting.sort start.entries) sweep) = false
      ∨ ∀ entry ∈ sorting.sort start.entries, ¬ evictable keep scope
        (evictOver keep (options.budget scope) scope (sorting.sort start.entries) sweep) entry = true :=
    evict_exhausts (evictable_kept scope) (evictable_spent scope) _ _
  generalize evictOver keep (options.budget scope) scope (sorting.sort start.entries) sweep = after
    at ended fewer
  rcases ended with within | exhausted
  · left
    have total := UInt64.lt_iff_toNat_lt.not.mp (by simpa [overBudget] using within)
    have fits : bytesOf scope after.live < 2 ^ 64 :=
      Nat.lt_of_le_of_lt (Nat.le_trans (bytesOf_mono fewer) (bytesOf_all scope _)) small
    rw [liveTotal_toNat, Nat.mod_eq_of_lt fits] at total
    omega
  · right
    intro entry alive counted
    have listed := fewer.subset alive
    have out := exhausted entry ((sorting.perm start.entries).mem_iff.mpr listed)
    rw [← decides entry listed]
    by_contra held
    have unkept : keep entry = false := Bool.eq_false_iff.mpr held
    exact out (by simp [evictable, alive, unkept, counted])

/-- The budgets of the projects, one after the other. -/
theorem evictProjects {sweep : Sweep} (sorting : Sorting) (projects : List Bytes)
    (limited : options.max_project_bytes ≠ 0) (sound : Sound options kept start sweep) :
    let swept := projects.foldl (fun sweep project => evictOver keep options.max_project_bytes
      (.project project) (sorting.sort start.entries) sweep) sweep
    Sound options kept start swept ∧ swept.live.Sublist sweep.live
      ∧ (start.bytes .all < 2 ^ 64 → ∀ project ∈ projects,
        Settled kept options.max_project_bytes (.project project) swept.live) := by
  induction projects generalizing sweep with
  | nil => exact ⟨sound, List.Sublist.refl _, fun _ project member => absurd member List.not_mem_nil⟩
  | cons project rest ih =>
    have next := sound.evictOver decides sorting (.project project) limited
    obtain ⟨after, fewer, settled⟩ := ih next
    refine ⟨after, fewer.trans (evictOver_live _ _ _ _), fun small other member => ?_⟩
    rcases List.mem_cons.mp member with rfl | member
    · exact (evictOver_settled decides sorting (.project other) limited small sound).mono fewer
    · exact settled small other member

omit decides

theorem tidy_entries (store : Store) : store.tidy.entries = store.entries := by
  rw [Store.entries, Store.entries, tidy_artifacts]

theorem sweep_sound (sorting : Sorting) (store : Store) (latest : options.keep_latest = true) :
    Sound options (options.prune store).tidy.Protects (options.prune store).tidy
        (sweepCiArtifacts sorting options store)
      ∧ ((options.prune store).tidy.bytes .all < 2 ^ 64 → ∀ scope, options.budget scope ≠ 0 →
        Settled (options.prune store).tidy.Protects (options.budget scope) scope
          (sweepCiArtifacts sorting options store).live) := by
  unfold sweepCiArtifacts
  dsimp only
  rw [← tidy_entries]
  generalize (options.prune store).tidy = start
  generalize (options.prune store).orphans = orphans
  have decides : ∀ entry ∈ start.entries,
      (options.keeps start.entries entry = true ↔ start.Protects entry) :=
    fun entry member => keeps_iff latest member
  have timed := (Sound.init options start.Protects start orphans).expire decides start.entries
    (List.Subset.refl _)
  generalize expire options (options.keeps start.entries) start.entries
    ⟨start, orphans, start.entries, []⟩ = sweep at timed
  -- The global budget, where there is one.
  obtain ⟨total, total_eq⟩ : ∃ total, total = if options.max_total_bytes ≠ 0 then
      evictOver (options.keeps start.entries) options.max_total_bytes .all
        (sorting.sort start.entries) sweep
    else sweep := ⟨_, rfl⟩
  rw [← total_eq]
  have total_sound : Sound options start.Protects start total := by
    rw [total_eq]
    split
    · next limited => exact timed.evictOver decides sorting .all limited
    · exact timed
  have total_settled : start.bytes .all < 2 ^ 64 → options.max_total_bytes ≠ 0 →
      Settled start.Protects options.max_total_bytes .all total.live := by
    intro small limited
    rw [total_eq, if_pos limited]
    exact evictOver_settled decides sorting .all limited small timed
  -- The budget of each project.
  split
  · next limited =>
    obtain ⟨after, fewer, settled⟩ := evictProjects decides sorting
      (sortedUnique ((sorting.sort start.entries).map (·.run.project))) limited total_sound
    refine ⟨after, fun small scope bounded => ?_⟩
    cases scope with
    | all => exact (total_settled small bounded).mono fewer
    | project name =>
      by_cases present : name ∈ sortedUnique ((sorting.sort start.entries).map (·.run.project))
      · exact settled small name present
      · right
        intro entry alive counted
        refine absurd ?_ present
        rw [mem_sortedUnique, List.mem_map]
        exact ⟨entry, (sorting.perm _).mem_iff.mpr (after.live_sublist.subset alive),
          by simpa [Scope.counts] using counted⟩
  · next unlimited =>
    refine ⟨total_sound, fun small scope bounded => ?_⟩
    cases scope with
    | all => exact total_settled small bounded
    | project name => exact absurd bounded unlimited

/-- What a sweep with keep-latest may do to a store. The timer and the budgets see the run
directories that are left. -/
structure RetentionLaw (options : CiArtifactSweepOptions) (store : Store) (swept : Sweep) : Prop where
  directories : swept.store.directories = store.projects.map fun project =>
    (project.name, (project.runs.filter fun run =>
      project.Retains options.runs_keep run.group).map (·.id))
  nothing_new : swept.store.artifacts ⊆ (options.prune store).artifacts
  durable : ∀ artifact ∈ (options.prune store).artifacts, artifact.expires = 0 →
    artifact ∈ swept.store.artifacts
  newest : ∀ artifact ∈ (options.prune store).artifacts, (options.prune store).Protects artifact →
    artifact ∈ swept.store.artifacts
  /-- A bundle goes with its artifact, and where it has no sidecar; every other one stays. -/
  bundles : ∀ place, place ∈ swept.store.bundles ↔
    place ∈ (options.prune store).bundles ∧ place ∈ (options.prune store).sidecars
      ∧ ∀ artifact ∈ (options.prune store).artifacts, artifact.place = place →
        artifact ∈ swept.store.artifacts
  budgets : (options.prune store).bytes .all < 2 ^ 64 → ∀ scope, options.budget scope ≠ 0 →
    swept.store.bytes scope ≤ (options.budget scope).toNat
      ∨ ∀ artifact ∈ swept.store.entries, scope.counts artifact →
        (options.prune store).Protects artifact
  /-- An artifact that has not expired goes while its scope is over the budget, after all that are
  older. -/
  oldest_first : ∀ artifact ∈ (options.prune store).artifacts, artifact ∉ swept.store.artifacts →
    ¬ options.expired artifact → ∃ scope, ∃ removal ∈ swept.log, removal.entry = artifact
      ∧ removal.cause = .budget scope ∧ options.budget scope ≠ 0 ∧ scope.counts artifact
      ∧ (options.budget scope).toNat < removal.before.bytes scope
      ∧ removal.before.artifacts ⊆ (options.prune store).artifacts
      ∧ swept.store.artifacts ⊆ removal.before.artifacts
      ∧ ∀ older ∈ (options.prune store).entries, scope.counts older →
        ¬ (options.prune store).Protects older → older.created < artifact.created →
        older ∉ removal.before.artifacts

theorem sweep_retains (sorting : Sorting) (options : CiArtifactSweepOptions) (store : Store)
    (latest : options.keep_latest = true) :
    RetentionLaw options store (sweepCiArtifacts sorting options store) := by
  obtain ⟨sound, settled⟩ := sweep_sound sorting store latest
  generalize sweepCiArtifacts sorting options store = swept at sound settled
  have protects_eq : (options.prune store).tidy.Protects = (options.prune store).Protects := by
    funext artifact
    rw [Store.Protects, Store.Protects, tidy_entries]
  rw [protects_eq] at sound settled
  have gone {artifact : Entry} (held : artifact ∈ (options.prune store).artifacts)
      (out : artifact ∉ swept.store.artifacts) : ∃ removal ∈ swept.log, removal.entry = artifact
        ∧ artifact ∈ (options.prune store).entries := by
    have listed : artifact.place ∈ swept.removedPlaces := by
      by_contra unlisted
      rw [sound.artifacts, tidy_artifacts] at out
      exact out (List.mem_filter.mpr ⟨held, by simpa using unlisted⟩)
    obtain ⟨removal, logged, same⟩ := List.mem_map.mp listed
    obtain ⟨from_start, -⟩ := sound.removals removal logged
    rw [tidy_entries] at from_start
    have one := artifact_unique (List.mem_of_mem_filter from_start) held same
    exact ⟨removal, logged, one, one ▸ from_start⟩
  refine ⟨?_, ?_, ?_, ?_, ?_, ?_, ?_⟩
  · rw [sound.directories, tidy_directories, prune_directories]
  · rw [sound.artifacts, tidy_artifacts]
    exact List.filter_subset_self _
  · intro artifact held forever
    by_contra out
    obtain ⟨removal, -, -, ephemeral⟩ := gone held out
    have dated := (List.mem_filter.mp ephemeral).2
    simp [forever] at dated
  · intro artifact held protected_here
    by_contra out
    obtain ⟨removal, logged, rfl, -⟩ := gone held out
    exact (sound.removals removal logged).2.1 protected_here
  · intro place
    rw [sound.bundles, List.mem_filter, decide_eq_true_eq, mem_tidy_bundles, and_assoc]
    refine and_congr_right fun _ => and_congr_right fun _ => ?_
    rw [sound.artifacts, tidy_artifacts]
    constructor
    · rintro out artifact held rfl
      exact List.mem_filter.mpr ⟨held, by simpa using out⟩
    · intro all listed
      obtain ⟨removal, logged, same⟩ := List.mem_map.mp listed
      obtain ⟨from_start, -⟩ := sound.removals removal logged
      rw [tidy_entries] at from_start
      have kept := (List.mem_filter.mp (all removal.entry (List.mem_of_mem_filter from_start) same)).2
      rw [decide_eq_true_eq, same] at kept
      exact kept listed
  · intro small scope limited
    have done := settled (by rwa [Store.bytes, tidy_entries]) scope limited
    rw [sound.live] at done
    exact done
  · intro artifact held out lasting
    obtain ⟨removal, logged, rfl, ephemeral⟩ := gone held out
    obtain ⟨-, -, within, remains, reason⟩ := sound.removals removal logged
    rw [tidy_artifacts] at within
    unfold CiArtifactSweepOptions.Justifies at reason
    split at reason
    · next timer =>
      have dated := (List.mem_filter.mp ephemeral).2
      refine absurd ?_ lasting
      simp only [decide_eq_true_eq] at dated
      simp [CiArtifactSweepOptions.expired, dated, reason.1, reason.2]
    · next scope cause =>
      obtain ⟨limited, counted, -, exceeded, oldest⟩ := reason
      refine ⟨scope, removal, logged, rfl, cause, limited, counted, exceeded, within, remains, ?_⟩
      intro older listed older_counted free younger still
      have older_entry : older ∈ removal.before.entries :=
        List.mem_filter.mpr ⟨still, (List.mem_filter.mp listed).2⟩
      exact oldest older older_entry older_counted free younger

theorem not_earlier_iff (a b : Entry) :
    ¬ earlier b a ↔ a.created < b.created ∨ (a.created = b.created ∧ a.group ≤ b.group) := by
  unfold earlier
  by_cases same : b.created = a.created
  · simp [same]
  · have different : a.created ≠ b.created := fun equal => same equal.symm
    simp only [ne_eq, same, not_false_iff, if_true, decide_eq_true_eq, different, false_and, or_false,
      UInt64.lt_iff_toNat_lt]
    have apart : a.created.toNat ≠ b.created.toNat := fun equal => different (UInt64.toNat_inj.mp equal)
    omega

instance : Std.Total (fun a b : Entry => ¬ earlier b a) where
  total a b := by
    simp only [not_earlier_iff, UInt64.lt_iff_toNat_lt, ← UInt64.toNat_inj]
    rcases List.le_total a.group b.group with ordered | ordered
    · have := Nat.lt_trichotomy a.created.toNat b.created.toNat
      simp only [ordered, and_true]
      omega
    · have := Nat.lt_trichotomy a.created.toNat b.created.toNat
      simp only [ordered, and_true]
      omega

instance : IsTrans Entry (fun a b => ¬ earlier b a) where
  trans a b c first second := by
    simp only [not_earlier_iff, UInt64.lt_iff_toNat_lt, ← UInt64.toNat_inj] at first second ⊢
    rcases first with first | ⟨first, below⟩
    · left
      omega
    · rcases second with second | ⟨second, above⟩
      · left
        omega
      · exact .inr ⟨first.trans second, List.le_trans below above⟩

def insertion : Sorting where
  sort := List.insertionSort fun a b => ¬ earlier b a
  perm := List.perm_insertionSort _
  sorted := List.pairwise_insertionSort _

def Sidecar.ofArtifact (artifact : CiArtifactRecord) : Sidecar where
  base := artifact.name
  record := some artifact
  named := fun _ same => congrArg CiArtifactRecord.name (Option.some.inj same).symm

def finishedRecord (id : String) : CiRunRecord :=
  { run_id := ascii id, project_name := ascii "demo", ref := [], commit_id := [], status := .success }

/-- A run that ended with one artifact. -/
def finishedRun (id : String) (bytes created expires : UInt64) : RunDirectory where
  id := ascii id
  record := some (finishedRecord id)
  tars := [ascii "bundle"]
  inis := [.ofArtifact
    { name := ascii "bundle", bytes, created_epoch_seconds := created, expires_epoch_seconds := expires }]
  distinct := List.nodup_singleton _

def demo (runs : List RunDirectory) (distinct : (runs.map (·.id)).Nodup) : Store where
  projects := [{ name := ascii "demo", runs, distinct }]
  distinct := List.nodup_singleton _

/-- Two runs, the older of them with an artifact that expires then. -/
def twoRuns (bytes expires : UInt64) : Store :=
  demo [finishedRun "1" bytes 100 expires, finishedRun "2" bytes 200 900]
    (by decide : [ascii "1", ascii "2"].Nodup)

/-- The newer of two runs has no artifacts. -/
def emptyAfter : Store :=
  demo [finishedRun "1" 10 100 900, ⟨ascii "2", some (finishedRecord "2"), false, false, false, [], [], by simp⟩]
    (by decide : [ascii "1", ascii "2"].Nodup)

theorem sweep_retains_two_runs :
    RetentionLaw { max_total_bytes := 15, runs_keep := 2 } (twoRuns 10 900)
        (sweepCiArtifacts insertion { max_total_bytes := 15, runs_keep := 2 } (twoRuns 10 900))
      ∧ (CiArtifactSweepOptions.prune { max_total_bytes := 15, runs_keep := 2 } (twoRuns 10 900)).bytes .all
        < 2 ^ 64
      ∧ (sweepCiArtifacts insertion { max_total_bytes := 15, runs_keep := 2 } (twoRuns 10 900)).removed = 1
      ∧ (sweepCiArtifacts insertion { max_total_bytes := 15, runs_keep := 2 } (twoRuns 10 900)).store.bundles
        = [⟨⟨ascii "demo", ascii "2"⟩, ascii "bundle"⟩] :=
  ⟨sweep_retains insertion _ _ rfl, by decide +kernel⟩

/-- A run directory goes with its durable artifacts and with those of the newest group that holds
any, and sizes that add up to 2^64 count as nothing. -/
theorem sweep_removes_durable :
    (∃ artifact ∈ (twoRuns 10 0).artifacts, artifact.expires = 0
        ∧ artifact ∉ (sweepCiArtifacts insertion { runs_keep := 1 } (twoRuns 10 0)).store.artifacts)
      ∧ (∃ artifact ∈ emptyAfter.artifacts, emptyAfter.Protects artifact
        ∧ artifact ∉ (sweepCiArtifacts insertion { runs_keep := 1 } emptyAfter).store.artifacts)
      ∧ 15 < (sweepCiArtifacts insertion { max_total_bytes := 15 } (twoRuns (2 ^ 63) 900)).store.bytes .all
      ∧ ∃ artifact ∈ (sweepCiArtifacts insertion { max_total_bytes := 15 }
          (twoRuns (2 ^ 63) 900)).store.entries,
        ¬ (twoRuns (2 ^ 63) 900).Protects artifact := by
  unfold Store.Protects
  decide +kernel

end CkGit.Retention
