import CkGit.Artifacts.Model

/-!
A listed artifact and its bundle, whatever commits and sweeps run at the same
time and wherever they stop. The code keeps them together as long as no sweep
deletes or prunes a listed bundle, no sweep lists a run whose commit is between
the move of a bundle and its sidecar, and no commit moves a bundle over one that
is listed, just moved or about to be dropped.
-/
namespace CkGit.Artifacts
open CkGit.Base CkGit.Ci CkGit.Upload

/-- A commit with the bundle it moved and has no sidecar for yet, or a sweep with the bundles it
found without a sidecar and is to drop. -/
inductive Role where
  | commit (moved : Option (Place × Bytes))
  | sweep (orphans : List Place)

/-- The sidecar of a stored artifact tells its size and digest. -/
def Describes (sha256 : Bytes → Bytes) (artifact : CiArtifactRecord) (bundle : Bytes) : Prop :=
  bundle.length = artifact.bytes.toNat ∧ sha256 bundle = artifact.sha256

/-- What commits and sweeps ask for: a commit lists what it has just moved. -/
def roles (sha256 : Bytes → Bytes) : Protocol FileOp Role where
  allowed role op :=
    match role, op with
    | .commit _, .move _ _ => True
    | .commit moved, .record place artifact =>
      artifact.note = [] → ∃ bundle, moved = some (place, bundle) ∧ Describes sha256 artifact bundle
    | .sweep _, .list _ | .sweep _, .read _ | .sweep _, .removeBundle _ | .sweep _, .removeSidecar _ =>
      True
    | _, _ => False
  after role op reply :=
    match role, op, reply with
    | .commit _, .move place bundle, _ => .commit (some (place, bundle))
    | .commit _, .record _ _, _ => .commit none
    | .sweep orphans, .list run, listing => .sweep (orphans ++ listing.orphans.map (⟨run, ·⟩))
    | .sweep orphans, .removeBundle place, _ => .sweep (orphans.filter (· ≠ place))
    | role, _, _ => role

abbrev Host := Interleaved FileOp Role Store

def emptyHost : Host := { store := { bundles := [], sidecars := [] }, processes := [] }

inductive Move where
  | commit (commit : CiCommit)
  | sweep (sweep : CiSweep)
  | advance (index : Nat)
  | crash (index : Nat)

section
variable (sha256 : Bytes → Bytes)

def step (host : Host) (move : Move) : Host :=
  match move with
  | .commit commit => host.start ⟨.commit none, commitCiRun sha256 commit⟩
  | .sweep sweep => host.start ⟨.sweep [], sweepCiArtifacts sweep⟩
  | .advance index => host.advance (roles sha256) perform index
  | .crash index => host.crash index

def runFrom (host : Host) (moves : List Move) : Host := moves.foldl (step sha256) host

/-- The name is listed: its sidecar is there, with an empty note. -/
def ListedAt (store : Store) (place : Place) (artifact : CiArtifactRecord) : Prop :=
  store.sidecar place = some artifact ∧ artifact.note = []

/-- The bundle a running commit moved and has not listed yet. -/
def moved (process : Process FileOp Role) : Option (Place × Bytes) :=
  match process with
  | ⟨.commit moved, .call _ _⟩ => moved
  | _ => none

/-- The bundles a sweep is to drop. -/
def orphans (process : Process FileOp Role) : List Place :=
  match process with
  | ⟨.sweep orphans, _⟩ => orphans
  | _ => []

/-- The next operation drops this bundle as one without a sidecar. -/
def Drops (process : Process FileOp Role) (place : Place) : Prop :=
  place ∈ orphans process ∧ ∃ next, process.rest = .call (.removeBundle place) next

structure Sound (host : Host) : Prop where
  /-- A listed artifact has its bundle. -/
  listed : ∀ place artifact, ListedAt host.store place artifact →
    ∃ bundle, host.store.bundle place = some bundle ∧ Describes sha256 artifact bundle
  /-- No sweep drops the bundle of a commit in progress. -/
  kept : ∀ sweep ∈ host.processes, ∀ place, Drops sweep place →
    ∀ commit ∈ host.processes, ∀ bundle, moved commit ≠ some (place, bundle)

/-- Every state of the run is sound. -/
def Kept (moves : List Move) : Prop :=
  ∀ count, Sound sha256 (runFrom sha256 emptyHost (moves.take count))

/-- No sidecar lists the bundle and no commit is about to. -/
def Free (host : Host) (place : Place) : Prop :=
  (∀ artifact, ¬ ListedAt host.store place artifact)
    ∧ ∀ commit ∈ host.processes, ∀ bundle, moved commit ≠ some (place, bundle)

structure MoveMeets (host : Host) (place : Place) (bundle : Bytes) : Prop where
  /-- A sidecar that is there tells of the new bundle. -/
  listed : ∀ artifact, ListedAt host.store place artifact → Describes sha256 artifact bundle
  /-- A commit that moved a bundle there moved the same one. -/
  same : ∀ commit ∈ host.processes, ∀ other, moved commit = some (place, other) → other = bundle
  /-- No sweep is to drop what is there. -/
  settled : ∀ sweep ∈ host.processes, place ∉ orphans sweep

def OpMeets {β : Type} (host : Host) (role : Role) (op : FileOp β) : Prop :=
  match role, op with
  | _, .move place bundle => MoveMeets sha256 host place bundle
  -- A sweep lists no run with a bundle whose commit has yet to write its sidecar.
  | _, .list listed => ∀ commit ∈ host.processes, ∀ place bundle, moved commit = some (place, bundle) →
      place.run = listed → host.store.sidecar place ≠ none
  -- A bundle that is deleted or pruned is not listed.
  | .sweep orphans, .removeBundle place => place ∈ orphans ∨ Free host place
  | _, _ => True

def Meets (host : Host) (move : Move) : Prop :=
  match move with
  | .advance index => ∀ role (β : Type) (op : FileOp β) next,
      host.processes[index]? = some ⟨role, .call op next⟩ → OpMeets sha256 host role op
  | _ => True

/-- Every move meets the condition. -/
def RunMeets (host : Host) (moves : List Move) : Prop :=
  match moves with
  | [] => True
  | move :: rest => Meets sha256 host move ∧ RunMeets (step sha256 host move) rest

end

section
variable {sha256 : Bytes → Bytes}

/-- A commit, between two outputs or after one. -/
def IsCommit (role : Role) : Prop := ∃ moved, role = .commit moved

def IsSweep (role : Role) : Prop := ∃ orphans, role = .sweep orphans

/-- A result without a note comes with the bundle just moved, its size and its digest. -/
def Taken (sha256 : Bytes → Bytes) (destination : Place) (result : Option (Bytes × UInt64 × Bytes))
    (role : Role) : Prop :=
  ∃ moved, role = .commit moved ∧ ∀ bytes digest, result = some ([], bytes, digest) →
    ∃ bundle, moved = some (destination, bundle) ∧ bundle.length = bytes.toNat ∧ sha256 bundle = digest

theorem Taken.noted {destination : Place} {note : Bytes} (filled : note ≠ []) {role : Role}
    (h : IsCommit role) : Taken sha256 destination (some (note, 0, [])) role := by
  obtain ⟨held, rfl⟩ := h
  refine ⟨held, rfl, fun bytes digest same => absurd ?_ filled⟩
  exact (Prod.mk.inj (Option.some.inj same)).1

theorem takeStaged_follows (staged : List CiStagedUpload) (kind : CiUploadKind) (name : Bytes)
    (destination : Place) {role : Role} (h : IsCommit role) :
    (roles sha256).Follows (takeStaged sha256 staged kind name destination) role
      (Taken sha256 destination) := by
  unfold takeStaged
  split
  · exact Taken.noted (by decide) h
  · rename_i upload _
    split
    · exact Taken.noted (by decide) h
    · rename_i whole
      obtain ⟨held, rfl⟩ := h
      split
      · exact ⟨held, rfl, fun _ _ same => by cases same⟩
      · rename_i content part
        split
        · exact Taken.noted (by decide) ⟨held, rfl⟩
        · split
          · exact Taken.noted (by decide) ⟨held, rfl⟩
          · refine Protocol.follows_bind (Protocol.follows_ask trivial fun _ => ?_)
            refine ⟨_, rfl, fun bytes digest same => ⟨content, rfl, ?_⟩⟩
            obtain ⟨rfl, rfl⟩ : upload.total = bytes ∧ sha256 content = digest := by
              simpa using same
            refine ⟨?_, rfl⟩
            rw [← Decidable.not_not.mp whole, CiStagedUpload.held, part]
            rfl

theorem writeCiArtifactRecord_follows {run : Run} {artifact : CiArtifactRecord}
    {held : Option (Place × Bytes)} (h : artifact.note = [] → ∃ bundle,
      held = some (⟨run, artifact.name⟩, bundle) ∧ Describes sha256 artifact bundle) :
    (roles sha256).Follows (writeCiArtifactRecord run artifact) (.commit held)
      fun _ => IsCommit := by
  unfold writeCiArtifactRecord
  split
  · exact Protocol.follows_ask h fun _ => ⟨none, rfl⟩
  · exact Protocol.follows_pure ⟨held, rfl⟩

theorem commitOutput_follows (commit : CiCommit) (output : CiDeclaredOutput) (created : UInt64)
    {role : Role} (h : IsCommit role) :
    (roles sha256).Follows (commitOutput sha256 commit output created) role fun _ => IsCommit := by
  have recorded : ∀ note bytes digest role, Taken sha256 ⟨commit.run, output.name⟩ (some (note, bytes, digest)) role →
      (roles sha256).Follows (writeCiArtifactRecord commit.run
        { name := output.name, bytes, sha256 := digest, created_epoch_seconds := created,
          expires_epoch_seconds := commit.expires output created, note }) role fun _ => IsCommit := by
    rintro note bytes digest role ⟨held, rfl, taken⟩
    apply writeCiArtifactRecord_follows
    rintro rfl
    exact taken bytes digest rfl
  unfold commitOutput
  simp only
  split
  · refine Protocol.follows_bind (Protocol.follows_mono (takeStaged_follows _ _ _ _ h) ?_)
    intro result after taken
    rcases result with _ | ⟨note, bytes, digest⟩
    · obtain ⟨held, same, -⟩ := taken
      exact ⟨held, same⟩
    · exact recorded note bytes digest after taken
  · rename_i noted
    exact recorded _ _ _ role (Taken.noted (by simpa using noted) h)

theorem commitCiRun_follows (commit : CiCommit) :
    (roles sha256).Follows (commitCiRun sha256 commit) (.commit none) fun _ => IsCommit := by
  have outputs_follow : ∀ outputs role, IsCommit role →
      (roles sha256).Follows (commitOutputs sha256 commit outputs) role fun _ => IsCommit := by
    intro outputs
    induction outputs with
    | nil => exact fun role h => h
    | cons first rest ih =>
      obtain ⟨output, created⟩ := first
      intro role h
      unfold commitOutputs
      split
      · exact ih role h
      · split
        · exact h
        · exact Protocol.follows_bind (Protocol.follows_mono (commitOutput_follows commit output created h)
            fun _ role after => ih role after)
  exact outputs_follow _ _ ⟨none, rfl⟩

/-- What a sweep asks for. -/
theorem sweep_asks {α : Type} {op : FileOp α} {role : Role} (h : IsSweep role)
    (sweeps : ∀ orphans, (roles sha256).allowed (.sweep orphans) op) :
    (roles sha256).Follows (.ask op) role fun _ => IsSweep := by
  obtain ⟨held, rfl⟩ := h
  refine Protocol.follows_ask (sweeps held) fun reply => ?_
  cases op <;> exact ⟨_, rfl⟩

theorem removePruned_follows (file : Pruned) {role : Role} (h : IsSweep role) :
    (roles sha256).Follows (removePruned file) role fun _ => IsSweep := by
  cases file with
  | bundle place => exact sweep_asks h fun _ => trivial
  | sidecar place => exact sweep_asks h fun _ => trivial

theorem deleteEntry_follows (entry : Entry) {role : Role} (h : IsSweep role) :
    (roles sha256).Follows (deleteEntry entry) role fun _ => IsSweep :=
  Protocol.follows_bind (Protocol.follows_mono (sweep_asks h fun _ => trivial)
    fun _ _ after => sweep_asks after fun _ => trivial)

theorem readEntry_follows (run : Run) (group : Bytes) (entries : List Entry) (base : Bytes)
    {role : Role} (h : IsSweep role) :
    (roles sha256).Follows (readEntry run group entries base) role fun _ => IsSweep := by
  refine Protocol.follows_bind (Protocol.follows_mono (sweep_asks h fun _ => trivial) ?_)
  intro found role after
  cases found with
  | none => exact after
  | some artifact =>
    show (roles sha256).Follows (if _ then _ else _) _ _
    split <;> exact after

theorem sweepRun_follows (entries : List Entry) (run : Run × Bytes) {role : Role} (h : IsSweep role) :
    (roles sha256).Follows (sweepRun entries run) role fun _ => IsSweep := by
  refine Protocol.follows_bind (Protocol.follows_mono (sweep_asks h fun _ => trivial) ?_)
  intro listing role listed
  refine Protocol.follows_bind (Protocol.follows_mono (Protocol.follows_accumulate listed
    fun held base _ => readEntry_follows run.1 run.2 held base) ?_)
  intro entries role readAll
  refine Protocol.follows_bind (Protocol.follows_mono (Protocol.follows_accumulate readAll
    fun _ base _ asked => sweep_asks asked fun _ => trivial) ?_)
  exact fun _ role dropped => dropped

theorem sweepProject_follows (entries : List Entry) (project : SweptProject) {role : Role}
    (h : IsSweep role) :
    (roles sha256).Follows (sweepProject entries project) role fun _ => IsSweep :=
  Protocol.follows_bind (Protocol.follows_mono (Protocol.follows_accumulate h
    fun _ file _ => removePruned_follows file) fun _ _ pruned =>
      Protocol.follows_accumulate pruned fun held run _ => sweepRun_follows held run)

theorem evict_follows (budget : UInt64) (counted : Entry → Bool) (candidates live : List Entry)
    {role : Role} (h : IsSweep role) :
    (roles sha256).Follows (evict budget counted candidates live) role fun _ => IsSweep := by
  induction candidates generalizing live role with
  | nil => exact h
  | cons entry rest ih =>
    unfold evict
    split
    · exact h
    · split
      · exact Protocol.follows_bind (Protocol.follows_mono (deleteEntry_follows entry h)
          fun _ _ deleted => ih _ deleted)
      · exact ih live h

theorem sweepCiArtifacts_follows (sweep : CiSweep) :
    (roles sha256).Follows (sweepCiArtifacts sweep) (.sweep []) fun _ => IsSweep := by
  have start : IsSweep (.sweep []) := ⟨[], rfl⟩
  refine Protocol.follows_bind (Protocol.follows_mono (Protocol.follows_accumulate start
    fun held project _ => sweepProject_follows held project) ?_)
  intro entries role read
  refine Protocol.follows_bind (Protocol.follows_mono (Protocol.follows_accumulate read ?_) ?_)
  · intro live entry role h
    show (roles sha256).Follows (if _ then _ else _) _ _
    split
    · exact Protocol.follows_bind (Protocol.follows_mono (deleteEntry_follows entry h)
        fun _ _ deleted => deleted)
    · exact h
  intro live role expired
  have budgets : ∀ live role, IsSweep role → (roles sha256).Follows
      (if sweep.max_project_bytes ≠ 0 then
        .accumulate (sortedUnique (entries.map (·.run.project))) () fun _ project => do
          let _ ← evict sweep.max_project_bytes (fun entry => entry.run.project = project)
            ((entries.mergeSort oldestFirst).filter fun entry => !sweep.keeps entries entry) live
          pure ()
      else pure ()) role fun _ => IsSweep := by
    intro live role evicted
    split
    · refine Protocol.follows_accumulate evicted fun _ project role h => ?_
      exact Protocol.follows_bind (Protocol.follows_mono (evict_follows _ _ _ _ h)
        fun _ _ deleted => deleted)
    · exact evicted
  simp only
  split
  · exact Protocol.follows_bind (Protocol.follows_mono (evict_follows _ _ _ _ expired) budgets)
  · exact budgets live role expired

end

theorem lookup_without {α : Type} (place other : Place) (files : List (Place × α)) :
    (without place files).lookup other = if other = place then none else files.lookup other := by
  induction files with
  | nil => simp [without]
  | cons file rest ih =>
    obtain ⟨name, content⟩ := file
    rw [without, List.filter_cons]
    by_cases removed : name = place
    · subst removed
      rw [if_neg (by simp)]
      refine ih.trans ?_
      by_cases same : other = name
      · rw [if_pos same, if_pos same]
      · rw [if_neg same, if_neg same, List.lookup_cons, beq_false_of_ne same]
    · rw [if_pos (by simpa using removed), List.lookup_cons, List.lookup_cons]
      by_cases same : other = name
      · subst same
        simp [removed]
      · rw [beq_false_of_ne same]
        exact ih

theorem lookup_put {α : Type} (place other : Place) (content : α) (files : List (Place × α)) :
    ((place, content) :: without place files).lookup other
      = if other = place then some content else files.lookup other := by
  rw [List.lookup_cons, lookup_without]
  by_cases same : other = place
  · subst same
    simp
  · rw [if_neg same, if_neg same, beq_false_of_ne same]

theorem mem_namesIn {run : Run} {places : List Place} {name : Bytes} :
    name ∈ namesIn run places ↔ ⟨run, name⟩ ∈ places := by
  simp only [namesIn, List.mem_map, List.mem_filter, decide_eq_true_eq]
  constructor
  · rintro ⟨place, ⟨member, rfl⟩, rfl⟩
    exact member
  · exact fun member => ⟨_, ⟨member, rfl⟩, rfl⟩

/-- An orphan of a listing has no sidecar. -/
theorem orphans_unlisted {store : Store} {run : Run} {base : Bytes}
    (h : base ∈ (perform (.list run) store).1.orphans) : store.sidecar ⟨run, base⟩ = none := by
  have absent := (List.mem_filter.mp h).2
  simp only [perform, decide_not, Bool.not_eq_true', decide_eq_false_iff_not, mem_namesIn] at absent
  rw [Store.sidecar, List.lookup_eq_none_iff]
  intro file member
  exact bne_iff_ne.mpr fun same => absent (same ▸ List.mem_map_of_mem member)

/-- What holds between two operations. -/
structure Inv (sha256 : Bytes → Bytes) (host : Host) : Prop where
  listed : ∀ place artifact, ListedAt host.store place artifact →
    ∃ bundle, host.store.bundle place = some bundle ∧ Describes sha256 artifact bundle
  /-- A bundle just moved is in its place. -/
  inPlace : ∀ process ∈ host.processes, ∀ place bundle, moved process = some (place, bundle) →
    host.store.bundle place = some bundle
  /-- What a sweep is to drop is neither listed nor about to be. -/
  unclaimed : ∀ process ∈ host.processes, ∀ place ∈ orphans process, Free host place
  follows : ∀ process ∈ host.processes, (roles sha256).Follows process.rest process.note fun _ _ => True

section
variable {sha256 : Bytes → Bytes} {host : Host} {index : Nat}

theorem Inv.sound (h : Inv sha256 host) : Sound sha256 host :=
  ⟨h.listed, fun sweep member place drops => (h.unclaimed sweep member place drops.1).2⟩

theorem Inv.start (h : Inv sha256 host) {process : Process FileOp Role}
    (follows : (roles sha256).Follows process.rest process.note fun _ _ => True)
    (idle : moved process = none) (empty : orphans process = []) :
    Inv sha256 (host.start process) := by
  have known : ∀ {other}, other ∈ (host.start process).processes → other ∈ host.processes ∨ other = process := by
    intro other member
    rcases List.mem_append.mp member with old | new
    · exact .inl old
    · exact .inr (List.mem_singleton.mp new)
  refine ⟨h.listed, fun other member place bundle => ?_, fun other member place mine => ?_,
    fun other member => ?_⟩
  · rcases known member with old | rfl
    · exact h.inPlace other old place bundle
    · rw [idle]
      exact nofun
  · rcases known member with old | rfl
    · refine ⟨(h.unclaimed other old place mine).1, fun commit present bundle => ?_⟩
      rcases known present with old_commit | rfl
      · exact (h.unclaimed other old place mine).2 commit old_commit bundle
      · rw [idle]
        exact nofun
    · rw [empty] at mine
      cases mine
  · rcases known member with old | rfl
    · exact h.follows other old
    · exact follows

theorem Inv.crash (h : Inv sha256 host) : Inv sha256 (host.crash index) := by
  have known : ∀ {other}, other ∈ (host.crash index).processes → other ∈ host.processes :=
    fun member => List.mem_of_mem_eraseIdx member
  refine ⟨h.listed, fun other member => h.inPlace other (known member), fun other member place mine => ?_,
    fun other member => h.follows other (known member)⟩
  have free := h.unclaimed other (known member) place mine
  exact ⟨free.1, fun commit present => free.2 commit (known present)⟩

/-- What one operation must keep: the listed and moved bundles, and the freedom of what is to be
dropped, for the other processes and for its own. -/
theorem Inv.advanced (h : Inv sha256 host) {store : Store} {process : Process FileOp Role}
    (listed : ∀ place artifact, ListedAt store place artifact →
      ∃ bundle, store.bundle place = some bundle ∧ Describes sha256 artifact bundle)
    (others : ∀ other ∈ host.processes, ∀ place bundle,
      moved other = some (place, bundle) → store.bundle place = some bundle)
    (own : ∀ place bundle, moved process = some (place, bundle) →
      store.bundle place = some bundle)
    (free : ∀ other ∈ host.processes, ∀ place ∈ orphans other,
      (∀ artifact, ¬ ListedAt store place artifact)
        ∧ ∀ bundle, moved process ≠ some (place, bundle))
    (ownFree : ∀ place ∈ orphans process, (∀ artifact, ¬ ListedAt store place artifact)
      ∧ (∀ other ∈ host.processes, ∀ bundle, moved other ≠ some (place, bundle))
      ∧ ∀ bundle, moved process ≠ some (place, bundle))
    (follows : (roles sha256).Follows process.rest process.note fun _ _ => True) :
    Inv sha256 { store, processes := host.processes.set index process } := by
  have known : ∀ {other}, other ∈ host.processes.set index process →
      other ∈ host.processes ∨ other = process := fun member => List.mem_or_eq_of_mem_set member
  refine ⟨listed, fun other member place bundle => ?_, fun other member place mine => ?_,
    fun other member => ?_⟩
  · rcases known member with old | rfl
    · exact others other old place bundle
    · exact own place bundle
  · rcases known member with old | rfl
    · refine ⟨(free other old place mine).1, fun commit present bundle => ?_⟩
      rcases known present with old_commit | rfl
      · exact (h.unclaimed other old place mine).2 commit old_commit bundle
      · exact (free other old place mine).2 bundle
    · refine ⟨(ownFree place mine).1, fun commit present bundle => ?_⟩
      rcases known present with old_commit | rfl
      · exact (ownFree place mine).2.1 commit old_commit bundle
      · exact (ownFree place mine).2.2 bundle
  · rcases known member with old | rfl
    · exact h.follows other old
    · exact follows

/-- A bundle is moved where nothing else depends on what was there. -/
theorem Inv.move (h : Inv sha256 host) {place : Place} {bundle : Bytes}
    {next : Unit → Script FileOp Unit} (meets : MoveMeets sha256 host place bundle)
    (follows : (roles sha256).Follows (next ()) (.commit (some (place, bundle))) fun _ _ => True) :
    Inv sha256 { store := (perform (.move place bundle) host.store).2,
                 processes := host.processes.set index ⟨.commit (some (place, bundle)), next ()⟩ } := by
  have placed : ∀ other, (perform (.move place bundle) host.store).2.bundle other
      = if other = place then some bundle else host.store.bundle other :=
    fun other => lookup_put place other bundle host.store.bundles
  have own : ∀ other content, moved ⟨.commit (some (place, bundle)), next ()⟩ = some (other, content) →
      other = place ∧ content = bundle := by
    intro other content same
    unfold moved at same
    split at same
    · rename_i shape
      obtain ⟨shape, -⟩ := Process.mk.inj shape
      rw [← Role.commit.inj shape] at same
      obtain ⟨rfl, rfl⟩ := Prod.mk.inj (Option.some.inj same)
      exact ⟨rfl, rfl⟩
    · cases same
  refine h.advanced ?_ ?_ ?_ ?_ nofun follows
  · intro other artifact there
    rw [placed]
    by_cases same : other = place
    · rw [if_pos same]
      exact ⟨bundle, rfl, meets.listed artifact (same ▸ there)⟩
    · rw [if_neg same]
      exact h.listed other artifact there
  · intro commit member other content held
    rw [placed]
    by_cases same : other = place
    · rw [if_pos same, meets.same commit member content (same ▸ held)]
    · rw [if_neg same]
      exact h.inPlace commit member other content held
  · intro other content held
    obtain ⟨rfl, rfl⟩ := own other content held
    rw [placed, if_pos rfl]
  · intro sweep member other mine
    refine ⟨(h.unclaimed sweep member other mine).1, fun content held => ?_⟩
    exact meets.settled sweep member ((own other content held).1 ▸ mine)

/-- A sidecar is written for the bundle just moved, or with a note. -/
theorem Inv.record (h : Inv sha256 host) {place : Place} {artifact : CiArtifactRecord}
    {held : Option (Place × Bytes)} {next : Unit → Script FileOp Unit}
    (running : host.processes[index]? = some ⟨.commit held, .call (.record place artifact) next⟩)
    (allowed : artifact.note = [] → ∃ bundle, held = some (place, bundle)
      ∧ Describes sha256 artifact bundle)
    (follows : (roles sha256).Follows (next ()) (.commit none) fun _ _ => True) :
    Inv sha256 { store := (perform (.record place artifact) host.store).2,
                 processes := host.processes.set index ⟨.commit none, next ()⟩ } := by
  have member := List.mem_of_getElem? running
  have written : ∀ other, (perform (.record place artifact) host.store).2.sidecar other
      = if other = place then some artifact else host.store.sidecar other :=
    fun other => lookup_put place other artifact host.store.sidecars
  have idle : moved ⟨.commit none, next ()⟩ = none := by
    unfold moved
    split
    · rename_i shape
      exact (Role.commit.inj (Process.mk.inj shape).1).symm
    · rfl
  refine h.advanced ?_ h.inPlace ?_ ?_ nofun follows
  · rintro other found ⟨there, empty⟩
    rw [written] at there
    by_cases same : other = place
    · rw [if_pos same, Option.some.injEq] at there
      obtain ⟨bundle, rfl, describes⟩ := allowed (there ▸ empty)
      exact ⟨bundle, same ▸ h.inPlace _ member place bundle rfl, there ▸ describes⟩
    · rw [if_neg same] at there
      exact h.listed other found ⟨there, empty⟩
  · intro other content same
    rw [idle] at same
    cases same
  · intro sweep present other mine
    refine ⟨?_, fun content same => by rw [idle] at same; cases same⟩
    rintro found ⟨there, empty⟩
    rw [written] at there
    by_cases same : other = place
    · rw [if_pos same, Option.some.injEq] at there
      obtain ⟨bundle, rfl, -⟩ := allowed (there ▸ empty)
      exact (h.unclaimed sweep present other mine).2 _ member bundle (same ▸ rfl)
    · rw [if_neg same] at there
      exact (h.unclaimed sweep present other mine).1 found ⟨there, empty⟩

/-- A step of a sweep that leaves every bundle and sidecar of its own orphans alone. -/
theorem Inv.swept (h : Inv sha256 host) {store : Store} {dropped : List Place}
    {rest : Script FileOp Unit}
    (listed : ∀ place artifact, ListedAt store place artifact → ListedAt host.store place artifact
      ∧ store.bundle place = host.store.bundle place)
    (others : ∀ other ∈ host.processes, ∀ place bundle, moved other = some (place, bundle) →
      store.bundle place = host.store.bundle place)
    (free : ∀ place ∈ dropped, Free host place)
    (follows : (roles sha256).Follows rest (.sweep dropped) fun _ _ => True) :
    Inv sha256 { store, processes := host.processes.set index ⟨.sweep dropped, rest⟩ } := by
  refine h.advanced ?_ ?_ nofun ?_ ?_ follows
  · intro place artifact there
    rw [(listed place artifact there).2]
    exact h.listed place artifact (listed place artifact there).1
  · intro other member place bundle held
    rw [others other member place bundle held]
    exact h.inPlace other member place bundle held
  · intro other member place mine
    refine ⟨fun artifact there => ?_, nofun⟩
    exact (h.unclaimed other member place mine).1 artifact (listed place artifact there).1
  · intro place mine
    refine ⟨fun artifact there => ?_, (free place mine).2, nofun⟩
    exact (free place mine).1 artifact (listed place artifact there).1

theorem Inv.advance (h : Inv sha256 host) (meets : Meets sha256 host (.advance index)) :
    Inv sha256 (host.advance (roles sha256) perform index) := by
  unfold Interleaved.advance
  split
  case h_2 => exact h
  case h_1 role β op next running =>
    have member := List.mem_of_getElem? running
    obtain ⟨allowed, continues⟩ := h.follows _ member
    have op_meets := meets role β op next running
    cases role with
    | commit held =>
      cases op with
      | move place bundle => exact h.move op_meets (continues ())
      | record place artifact => exact h.record running allowed (continues ())
      | list | read | removeBundle | removeSidecar => exact allowed.elim
    | sweep dropped =>
      have mine : ∀ place ∈ dropped, Free host place := h.unclaimed _ member
      cases op with
      | move | record => exact allowed.elim
      | list run =>
        refine h.swept (fun _ _ there => ⟨there, rfl⟩) (fun _ _ _ _ _ => rfl) ?_ (continues _)
        intro place found
        rcases List.mem_append.mp found with old | new
        · exact mine place old
        · obtain ⟨base, orphan, rfl⟩ := List.mem_map.mp new
          have unlisted := @orphans_unlisted host.store run base orphan
          refine ⟨fun artifact there => ?_, fun commit present bundle moving => ?_⟩
          · rw [there.1] at unlisted
            cases unlisted
          · exact op_meets commit present _ bundle moving rfl unlisted
      | read place =>
        exact h.swept (fun _ _ there => ⟨there, rfl⟩) (fun _ _ _ _ _ => rfl) mine (continues _)
      | removeBundle place =>
        have free : Free host place := op_meets.elim (mine place) id
        have removed : ∀ other, other ≠ place →
            (perform (.removeBundle place) host.store).2.bundle other = host.store.bundle other :=
          fun other different =>
            (lookup_without place other host.store.bundles).trans (if_neg different)
        refine h.swept (fun other artifact there => ⟨there, removed other ?_⟩)
          (fun commit present other bundle moving => removed other ?_) ?_ (continues _)
        · rintro rfl
          exact free.1 artifact there
        · rintro rfl
          exact free.2 commit present bundle moving
        · exact fun other kept => mine other (List.mem_filter.mp kept).1
      | removeSidecar place =>
        have left : ∀ other artifact, (perform (.removeSidecar place) host.store).2.sidecar other
            = some artifact → host.store.sidecar other = some artifact := by
          intro other artifact there
          have whole := (lookup_without place other host.store.sidecars).symm.trans there
          split at whole
          · cases whole
          · exact whole
        exact h.swept (fun other artifact there => ⟨⟨left other artifact there.1, there.2⟩, rfl⟩)
          (fun _ _ _ _ _ => rfl) mine (continues _)

theorem Inv.step {move : Move} (h : Inv sha256 host) (meets : Meets sha256 host move) :
    Inv sha256 (step sha256 host move) := by
  have weaken : ∀ {α : Type} {script : Script FileOp α} {role : Role} {post : α → Role → Prop},
      (roles sha256).Follows script role post → (roles sha256).Follows script role fun _ _ => True :=
    fun follows => Protocol.follows_mono follows fun _ _ _ => trivial
  cases move with
  | commit commit =>
    refine h.start (weaken (commitCiRun_follows commit)) ?_ rfl
    unfold moved
    split
    · rename_i shape
      exact (Role.commit.inj (Process.mk.inj shape).1).symm
    · rfl
  | sweep sweep => exact h.start (weaken (sweepCiArtifacts_follows sweep)) rfl rfl
  | advance index => exact h.advance meets
  | crash index => exact h.crash

theorem inv_run {moves : List Move} (h : Inv sha256 host) (meets : RunMeets sha256 host moves) :
    Inv sha256 (runFrom sha256 host moves) := by
  induction moves generalizing host with
  | nil => exact h
  | cons move rest ih => exact ih (h.step meets.1) meets.2

theorem RunMeets.take {moves : List Move} (meets : RunMeets sha256 host moves) (count : Nat) :
    RunMeets sha256 host (moves.take count) := by
  induction moves generalizing host count with
  | nil => simpa using meets
  | cons move rest ih =>
    cases count with
    | zero => trivial
    | succ count => exact ⟨meets.1, ih meets.2 count⟩

/-- A run that meets the condition lists no artifact without its bundle. -/
theorem kept_of_meets {moves : List Move} (meets : RunMeets sha256 emptyHost moves) :
    Kept sha256 moves := by
  have start : Inv sha256 emptyHost := ⟨nofun, nofun, nofun, nofun⟩
  exact fun count => (inv_run start (meets.take count)).sound

end

/-- The digest of the one bundle of the runs below. -/
def digestOfX (content : Bytes) : Bytes :=
  if content = ascii "x" then
    ascii "2d711642b726b04401627ca9fbac32f5c8530fb1903cc4db02258717921a4881"
  else []

def smallCommit : CiCommit :=
  { run := ⟨ascii "p", ascii "1"⟩, child := false, success := true, is_release := false, declared := none
    outputs := [({ name := ascii "a" }, 100)]
    staged := [{ kind := .kArtifact, name := ascii "a", total := 1, sha256 := digestOfX (ascii "x")
                 part := some (ascii "x"), moves := true }]
    artifact_retention_days := 1, artifact_max_retention_days := 0 }

/-- A sweep at this time, of the one run. -/
def smallSweep (now : UInt64) : CiSweep :=
  { now_epoch_seconds := now, max_total_bytes := 0, max_project_bytes := 0, keep_latest := false
    projects := [{ pruned := [], runs := [(⟨ascii "p", ascii "1"⟩, ascii "1")] }] }

/-- A commit of one artifact and a sweep that lists it before it expires. -/
def quietMoves : List Move :=
  [.commit smallCommit, .advance 0, .advance 0, .sweep (smallSweep 200), .advance 1]

/-- The same, with a sweep after it has expired and up to the removal of the bundle. -/
def expiredMoves : List Move :=
  [.commit smallCommit, .advance 0, .advance 0, .sweep (smallSweep 90000), .advance 1, .advance 1,
    .advance 1]

set_option maxRecDepth 20000 in
theorem kept_quiet : RunMeets digestOfX emptyHost quietMoves ∧ Kept digestOfX quietMoves := by
  have meets : RunMeets digestOfX emptyHost quietMoves := by
    refine ⟨trivial, ?_, ?_, trivial, ?_, trivial⟩
    · intro role β op next running
      cases running
      exact ⟨nofun, List.forall_mem_singleton.mpr nofun, List.forall_mem_singleton.mpr nofun⟩
    · intro role β op next running
      cases running
      trivial
    · intro role β op next running
      cases running
      refine List.forall_mem_cons.mpr ⟨nofun, List.forall_mem_singleton.mpr nofun⟩
  exact ⟨meets, kept_of_meets meets⟩

/-- A sweep removes the bundle of a listed artifact before its sidecar. -/
theorem not_kept_expired : ¬ ∀ moves, Kept digestOfX moves := by
  intro all
  have sound := all expiredMoves 7
  have listed : ((runFrom digestOfX emptyHost expiredMoves).store.sidecar ⟨⟨ascii "p", ascii "1"⟩, ascii "a"⟩).any
      (·.note.isEmpty) = true := by decide +kernel
  have gone : (runFrom digestOfX emptyHost expiredMoves).store.bundle ⟨⟨ascii "p", ascii "1"⟩, ascii "a"⟩ = none := by
    decide +kernel
  obtain ⟨artifact, there, empty⟩ := (Option.any_eq_true _ _).mp listed
  obtain ⟨bundle, present, _⟩ := sound.listed _ artifact ⟨there, List.isEmpty_iff.mp empty⟩
  rw [show expiredMoves.take 7 = expiredMoves from rfl, gone] at present
  cases present

end CkGit.Artifacts
