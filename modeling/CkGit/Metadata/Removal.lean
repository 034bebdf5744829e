import CkGit.Metadata.Model

/-!
removeEntryAt: the dry run accepts exactly the trees that can be removed, and a
real run over such a tree unlinks it entry by entry.
-/
namespace CkGit.Metadata
open CkGit.Base CkGit.Ci CkGit.Events

/-- The path is one of these or below one. -/
def Below (paths : List Path) (path : Path) : Prop := ∃ start ∈ paths, start <+: path

namespace Tree
variable {tree other : Tree} {paths more : List Path} {path : Path} {node : Entry}

theorem same_nodes (same : tree.nodes = other.nodes) : tree = other := by
  cases tree
  cases other
  cases same
  rfl

theorem entry_some : tree.entry path = some node ↔ (path, node) ∈ tree.nodes :=
  ⟨Assoc.mem_of_get, Assoc.get_of_mem tree.distinct⟩

theorem mem_remove {entry : Path × Entry} :
    entry ∈ (tree.remove paths).nodes ↔ entry ∈ tree.nodes ∧ ¬ Below paths entry.1 := by
  unfold remove
  rw [List.mem_filter, Bool.not_eq_true', List.any_eq_false]
  simp only [List.isPrefixOf_iff_prefix, Below, not_exists, not_and]

theorem entry_remove : (tree.remove paths).entry path = some node ↔ tree.entry path = some node ∧ ¬ Below paths path := by
  rw [entry_some, entry_some, mem_remove]

theorem entry_kept (kept : ¬ Below paths path) : (tree.remove paths).entry path = tree.entry path := by
  refine Option.ext fun node => ?_
  rw [entry_remove, and_iff_left kept]

theorem entry_gone (gone : Below paths path) : (tree.remove paths).entry path = none := by
  cases found : (tree.remove paths).entry path with
  | none => rfl
  | some node => exact absurd gone (entry_remove.mp found).2

/-- What is below a path is there only with the path itself. -/
theorem above_of_below (filled : path ≠ []) {below : Path} (start : path <+: below)
    (there : tree.entry below = some node) :
    path = below ∨ ∃ is_private, tree.entry path = some (.directory is_private) := by
  by_cases same : path = below
  · exact .inl same
  · obtain ⟨is_private, member⟩ := tree.placed below node (entry_some.mp there) path start filled same
    exact .inr ⟨is_private, entry_some.mpr member⟩

theorem remove_congr (same : ∀ entry ∈ tree.nodes, Below paths entry.1 ↔ Below more entry.1) :
    tree.remove paths = tree.remove more := by
  refine same_nodes (List.filter_congr fun entry member => ?_)
  have both := same entry member
  unfold Below at both
  rw [Bool.eq_iff_iff, Bool.not_eq_true', Bool.not_eq_true', List.any_eq_false, List.any_eq_false]
  simp only [List.isPrefixOf_iff_prefix]
  constructor
  · intro none_left path listed start
    obtain ⟨first, known, above⟩ := both.mpr ⟨path, listed, start⟩
    exact none_left first known above
  · intro none_left path listed start
    obtain ⟨first, known, above⟩ := both.mp ⟨path, listed, start⟩
    exact none_left first known above

theorem remove_remove : (tree.remove paths).remove more = tree.remove (paths ++ more) := by
  refine same_nodes ?_
  unfold remove
  simp only [List.filter_filter, List.any_append, Bool.not_or]
  exact List.filter_congr fun _ _ => Bool.and_comm _ _

theorem remove_nothing (free : ∀ entry ∈ tree.nodes, ¬ Below paths entry.1) : tree.remove paths = tree := by
  refine same_nodes (List.filter_eq_self.mpr fun entry member => ?_)
  have kept := free entry member
  rw [Bool.not_eq_true', List.any_eq_false]
  simp only [List.isPrefixOf_iff_prefix]
  exact fun path listed start => kept ⟨path, listed, start⟩

theorem mem_directoryNames {name : Bytes} :
    name ∈ tree.directoryNames path ↔ ∃ node, tree.entry (path ++ [name]) = some node := by
  unfold directoryNames
  rw [List.mem_filterMap]
  constructor
  · rintro ⟨⟨whole, node⟩, member, last⟩
    split at last
    · rename_i inside
      have shape : whole = path ++ [name] := by
        rw [← inside.2]
        exact (List.dropLast_append_getLast? name last).symm
      exact ⟨node, entry_some.mpr (shape ▸ member)⟩
    · cases last
  · rintro ⟨node, there⟩
    refine ⟨(path ++ [name], node), entry_some.mp there, ?_⟩
    rw [if_pos ⟨by simp, List.dropLast_concat⟩, List.getLast?_concat]

end Tree

/-- Every directory from the path on is private and not too deep. -/
def Removable (levels : Nat) (path : Path) (tree : Tree) : Prop :=
  ∀ below is_private, path <+: below → tree.entry below = some (.directory is_private) →
    is_private = true ∧ below.length < path.length + levels

namespace Removable
variable {levels : Nat} {path : Path} {tree : Tree} {name : Bytes} {paths : List Path}

theorem remove (h : Removable levels path tree) : Removable levels path (tree.remove paths) :=
  fun below is_private start there => h below is_private start (Tree.entry_remove.mp there).1

theorem child (h : Removable (levels + 1) path tree) : Removable levels (path ++ [name]) tree := by
  intro below is_private start there
  obtain ⟨closed, short⟩ := h below is_private ((List.prefix_append _ _).trans start) there
  refine ⟨closed, ?_⟩
  rw [List.length_append, List.length_singleton]
  omega

/-- A directory is removable when its own mode and everything in it allow it. -/
theorem of_children {is_private : Bool} (own : tree.entry path = some (.directory is_private))
    (closed : is_private = true) (each : ∀ child ∈ tree.directoryNames path, Removable levels (path ++ [child]) tree) :
    Removable (levels + 1) path tree := by
  intro below kind start there
  obtain ⟨rest, rfl⟩ := start
  cases rest with
  | nil =>
    rw [List.append_nil, own] at there
    cases there
    rw [List.append_nil]
    exact ⟨closed, by omega⟩
  | cons name rest =>
    have shape : path ++ name :: rest = path ++ [name] ++ rest := by simp
    rw [shape] at there
    have inside : name ∈ tree.directoryNames path := by
      refine Tree.mem_directoryNames.mpr ?_
      rcases Tree.above_of_below (by simp) (List.prefix_append (path ++ [name]) rest) there with same | ⟨_, found⟩
      · exact ⟨.directory kind, by rw [same]; exact there⟩
      · exact ⟨_, found⟩
    have good := each name inside _ kind (List.prefix_append _ rest) there
    rw [shape]
    refine ⟨good.1, ?_⟩
    have short := good.2
    have long : (path ++ [name]).length = path.length + 1 := by simp
    omega

theorem of_absent (filled : path ≠ []) (absent : tree.entry path = none) : Removable levels path tree := by
  intro below is_private start there
  rcases Tree.above_of_below filled start there with rfl | ⟨_, found⟩
  · rw [absent] at there
    cases there
  · rw [absent] at found
    cases found

theorem of_record {content : Bytes} (filled : path ≠ []) (there : tree.entry path = some (.record content)) :
    Removable levels path tree := by
  intro below is_private start found
  rcases Tree.above_of_below filled start found with rfl | ⟨_, directory⟩
  · rw [there] at found
    cases found
  · rw [there] at directory
    cases directory

end Removable

section
variable {levels : Nat} {path : Path} {state : MetadataState}

theorem nothing_below (filled : path ≠ []) (absent : state.tree.entry path = none) : state.remove [path] = state := by
  unfold MetadataState.remove
  rw [Tree.remove_nothing]
  rintro ⟨below, node⟩ member ⟨start, listed, above⟩
  rw [List.mem_singleton] at listed
  subst listed
  rcases Tree.above_of_below filled above (Tree.entry_some.mpr member) with rfl | ⟨_, found⟩
  · rw [Tree.entry_some.mpr member] at absent
    cases absent
  · rw [absent] at found
    cases found

variable {dry_run is_private : Bool} {crash : MetadataState → Prop} {returned : Unit → MetadataState → Prop}
  {threw : String → MetadataState → Prop}

theorem wp_absent (absent : state.tree.entry path = none) :
    (removeEntryAt dry_run levels path).wp crash returned threw state ↔ returned () state := by
  rw [removeEntryAt.eq_def]
  simp only [Prog.wp, absent]

theorem wp_record {content : Bytes} (there : state.tree.entry path = some (.record content)) :
    (removeEntryAt dry_run levels path).wp crash returned threw state
      ↔ (Prog.whenever (¬ dry_run) (.modify (·.remove [path]))).wp crash returned threw state := by
  rw [removeEntryAt.eq_def]
  simp only [Prog.wp, there]

theorem wp_deep (there : state.tree.entry path = some (.directory is_private)) :
    (removeEntryAt dry_run 0 path).wp crash returned threw state
      ↔ threw "project metadata exceeds maximum directory depth" state := by
  rw [removeEntryAt.eq_def]
  simp only [Prog.wp, there]

theorem wp_directory (there : state.tree.entry path = some (.directory true)) :
    (removeEntryAt dry_run (levels + 1) path).wp crash returned threw state
      ↔ (Prog.forEach (state.tree.directoryNames path)
            fun child => removeEntryAt dry_run levels (path ++ [child])).wp crash
          (fun _ => (Prog.whenever (¬ dry_run) do
            .reads fun state =>
              rejectIf (state.tree.directoryNames path ≠ []) "could not remove project metadata directory"
            .modify (·.remove [path])).wp crash returned threw) threw state := by
  rw [removeEntryAt.eq_def]
  simp only [Prog.wp, there]
  rw [Prog.wp_bind]
  show Prog.wp (_ >>= _) crash _ _ _ ↔ _
  rw [Prog.wp_bind]

theorem wp_open (there : state.tree.entry path = some (.directory false)) :
    (removeEntryAt dry_run (levels + 1) path).wp crash returned threw state
      ↔ threw "metadata directory is not private and daemon-owned" state := by
  rw [removeEntryAt.eq_def]
  simp only [Prog.wp, there]
  rw [Prog.wp_bind]
  rfl

theorem removeEntryAt_dry (filled : path ≠ []) : (removeEntryAt true levels path).wp (fun _ => False)
    (fun _ after => after = state ∧ Removable levels path state.tree)
    (fun _ after => after = state ∧ ¬ Removable levels path state.tree) state := by
  induction levels generalizing path with
  | zero =>
    cases found : state.tree.entry path with
    | none => exact (wp_absent found).mpr ⟨rfl, .of_absent filled found⟩
    | some node =>
      cases node with
      | record content => exact (wp_record found).mpr ⟨rfl, .of_record filled found⟩
      | directory is_private =>
        refine (wp_deep found).mpr ⟨rfl, fun removable => ?_⟩
        have short := (removable path is_private List.prefix_rfl found).2
        omega
  | succ levels ih =>
    cases found : state.tree.entry path with
    | none => exact (wp_absent found).mpr ⟨rfl, .of_absent filled found⟩
    | some node =>
      cases node with
      | record content => exact (wp_record found).mpr ⟨rfl, .of_record filled found⟩
      | directory is_private =>
        cases is_private with
        | false =>
          refine (wp_open found).mpr ⟨rfl, fun removable => ?_⟩
          cases (removable path false List.prefix_rfl found).1
        | true =>
          refine (wp_directory found).mpr ?_
          have each : ∀ earlier child later, state.tree.directoryNames path = earlier ++ child :: later →
              ∀ now, (now = state ∧ ∀ child ∈ earlier, Removable levels (path ++ [child]) state.tree) →
              (removeEntryAt true levels (path ++ [child])).wp (fun _ => False)
                (fun _ after => after = state
                  ∧ ∀ other ∈ earlier ++ [child], Removable levels (path ++ [other]) state.tree)
                (fun _ after => after = state ∧ ¬ Removable (levels + 1) path state.tree) now := by
            rintro earlier child later _ _ ⟨rfl, good⟩
            refine Prog.wp_mono (ih (by simp)) (fun _ dead => dead) ?_ ?_
            · rintro _ _ ⟨rfl, accepted⟩
              refine ⟨rfl, fun other member => ?_⟩
              rcases List.mem_append.mp member with before | last
              · exact good other before
              · exact List.mem_singleton.mp last ▸ accepted
            · rintro _ _ ⟨rfl, bad⟩
              exact ⟨rfl, fun removable => bad (Removable.child removable)⟩
          refine Prog.wp_mono (Prog.wp_forEach_done each ⟨rfl, nofun⟩) (fun _ dead => dead) ?_ (fun _ _ kept => kept)
          rintro _ _ ⟨rfl, all⟩
          exact ⟨rfl, .of_children found rfl all⟩

/-- A state that the removal of these leaves when it is cut off. -/
def Cut (paths : List Path) (state after : MetadataState) : Prop :=
  ∃ removed, (∀ path ∈ removed, Below paths path) ∧ after = state.remove removed

theorem remove_remove {paths more : List Path} : (state.remove paths).remove more = state.remove (paths ++ more) :=
  congrArg (fun tree => { state with tree }) Tree.remove_remove

theorem remove_none : state.remove [] = state :=
  congrArg (fun tree => { state with tree })
    (Tree.remove_nothing fun _ _ ⟨_, listed, _⟩ => List.not_mem_nil listed)

/-- Removing what is below first changes nothing. -/
theorem remove_above {paths removed : List Path} (below : ∀ path ∈ removed, Below paths path) :
    (state.remove removed).remove paths = state.remove paths := by
  rw [remove_remove]
  refine congrArg (fun tree => { state with tree }) (Tree.remove_congr fun entry _ => ⟨?_, ?_⟩)
  · rintro ⟨start, listed, above⟩
    rcases List.mem_append.mp listed with first | second
    · obtain ⟨top, known, higher⟩ := below start first
      exact ⟨top, known, higher.trans above⟩
    · exact ⟨start, second, above⟩
  · rintro ⟨start, listed, above⟩
    exact ⟨start, List.mem_append_right _ listed, above⟩

theorem below_self {paths : List Path} (listed : path ∈ paths) : Below paths path := ⟨path, listed, List.prefix_rfl⟩

/-- The children removed so far. -/
def within (path : Path) (names : List Bytes) : List Path := names.map fun name => path ++ [name]

theorem within_below (names : List Bytes) : ∀ child ∈ within path names, Below [path] child := by
  intro child listed
  obtain ⟨name, _, rfl⟩ := List.mem_map.mp listed
  exact ⟨path, List.mem_singleton_self path, List.prefix_append _ _⟩

/-- Once every child is removed the directory is empty. -/
theorem emptied : (state.remove (within path (state.tree.directoryNames path))).tree.directoryNames path = [] := by
  refine List.eq_nil_iff_forall_not_mem.mpr fun name left => ?_
  obtain ⟨node, there⟩ := Tree.mem_directoryNames.mp left
  obtain ⟨before, kept⟩ := Tree.entry_remove.mp there
  have listed := Tree.mem_directoryNames.mpr ⟨node, before⟩
  exact kept (below_self (List.mem_map_of_mem listed))

theorem removeEntryAt_real (filled : path ≠ []) (removable : Removable levels path state.tree) :
    (removeEntryAt false levels path).wp (Cut [path] state) (fun _ after => after = state.remove [path])
      (fun _ _ => False) state := by
  have whole : Cut [path] state (state.remove [path]) := ⟨[path], fun _ listed => below_self listed, rfl⟩
  induction levels generalizing path state with
  | zero =>
    cases found : state.tree.entry path with
    | none => exact (wp_absent found).mpr (nothing_below filled found).symm
    | some node =>
      cases node with
      | record content => exact (wp_record found).mpr ⟨whole, rfl⟩
      | directory is_private =>
        have short := (removable path is_private List.prefix_rfl found).2
        omega
  | succ levels ih =>
    cases found : state.tree.entry path with
    | none => exact (wp_absent found).mpr (nothing_below filled found).symm
    | some node =>
      cases node with
      | record content => exact (wp_record found).mpr ⟨whole, rfl⟩
      | directory is_private =>
        obtain rfl := (removable path is_private List.prefix_rfl found).1
        refine (wp_directory found).mpr ?_
        have each : ∀ earlier child later, state.tree.directoryNames path = earlier ++ child :: later →
            ∀ now, now = state.remove (within path earlier) →
            (removeEntryAt false levels (path ++ [child])).wp (Cut [path] state)
              (fun _ after => after = state.remove (within path (earlier ++ [child])))
              (fun _ _ => False) now := by
          rintro earlier child later _ _ rfl
          have good : Removable levels (path ++ [child]) (state.remove (within path earlier)).tree :=
            removable.child.remove
          refine Prog.wp_mono (ih (by simp) good ⟨_, fun _ listed => below_self listed, rfl⟩) ?_ ?_
            (fun _ _ dead => dead)
          · rintro _ ⟨removed, below, rfl⟩
            refine ⟨within path earlier ++ removed, fun gone listed => ?_, remove_remove⟩
            rcases List.mem_append.mp listed with first | second
            · exact within_below earlier gone first
            · obtain ⟨start, known, above⟩ := below gone second
              rw [List.mem_singleton] at known
              subst known
              exact ⟨path, List.mem_singleton_self path, (List.prefix_append _ _).trans above⟩
          · rintro _ _ rfl
            rw [remove_remove, within, within, List.map_append]
            rfl
        refine Prog.wp_mono (Prog.wp_forEach_done each remove_none.symm) (fun _ cut => cut) ?_ (fun _ _ dead => dead)
        rintro _ _ rfl
        have complete : (state.remove (within path (state.tree.directoryNames path))).remove [path]
            = state.remove [path] := remove_above (within_below _)
        refine Prog.wp_whenever (fun _ => ?_) (fun skipped => absurd Bool.false_ne_true skipped)
        rw [Prog.wp_bind]
        refine Prog.wp_reads (fun _ _ => ?_) (fun error failed => ?_)
        · rw [Prog.wp_modify, complete]
          exact ⟨whole, rfl⟩
        · rw [emptied] at failed
          cases failed

variable {project_name : Bytes}

def recordPath (project_name directory_name : Bytes) : Path := [directory_name, project_name]

def recordPaths (project_name : Bytes) : List Path := recordDirectories.map (recordPath project_name)

/-- A directory of records is missing or can be opened, and what is there of the project can be removed. -/
def DirectoryRemovable (project_name : Bytes) (state : MetadataState) (directory_name : Bytes) : Prop :=
  (∃ present, state.openPrivateDirectoryAt [directory_name] = .ok present)
    ∧ Removable kLevels (recordPath project_name directory_name) state.tree

def RecordsRemovable (project_name : Bytes) (state : MetadataState) : Prop :=
  ∀ directory_name ∈ recordDirectories, DirectoryRemovable project_name state directory_name

/-- Without its directory a project has no record there. -/
theorem absent_of_missing {directory_name : Bytes} (missing : state.openPrivateDirectoryAt [directory_name] = .ok false) :
    state.tree.entry (recordPath project_name directory_name) = none := by
  have none_there : state.tree.entry [directory_name] = none := by
    unfold MetadataState.openPrivateDirectoryAt at missing
    split at missing
    · assumption
    all_goals cases missing
  cases found : state.tree.entry (recordPath project_name directory_name) with
  | none => rfl
  | some node =>
    rcases Tree.above_of_below (List.cons_ne_nil _ _) (List.prefix_append [directory_name] [project_name]) found with
      same | ⟨_, there⟩
    · cases same
    · rw [none_there] at there
      cases there

theorem removeRecords_dry : (removeRecords project_name true).wp (fun _ => False)
    (fun _ after => after = state ∧ RecordsRemovable project_name state)
    (fun _ after => after = state ∧ ¬ RecordsRemovable project_name state) state := by
  have each : ∀ earlier directory_name later, recordDirectories = earlier ++ directory_name :: later →
      ∀ now, (now = state ∧ ∀ other ∈ earlier, DirectoryRemovable project_name state other) →
      (do
        let present ← Prog.reads (·.openPrivateDirectoryAt [directory_name])
        .whenever present (removeEntryAt true kLevels (recordPath project_name directory_name)) :
        Prog MetadataState String Unit).wp (fun _ => False)
        (fun _ after => after = state
          ∧ ∀ other ∈ earlier ++ [directory_name], DirectoryRemovable project_name state other)
        (fun _ after => after = state ∧ ¬ RecordsRemovable project_name state) now := by
    rintro earlier directory_name later split _ ⟨rfl, good⟩
    have listed : directory_name ∈ recordDirectories := split ▸ List.mem_append_right _ List.mem_cons_self
    have extend : DirectoryRemovable project_name _ directory_name →
        ∀ other ∈ earlier ++ [directory_name], DirectoryRemovable project_name _ other := fun last other member =>
      (List.mem_append.mp member).elim (good other) fun final => List.mem_singleton.mp final ▸ last
    rw [Prog.wp_bind]
    refine Prog.wp_reads (fun present opened => Prog.wp_whenever (fun there => ?_) (fun missing => ?_)) (fun error failed => ?_)
    · refine Prog.wp_mono (removeEntryAt_dry (List.cons_ne_nil _ _)) (fun _ dead => dead) ?_ ?_
      · rintro _ _ ⟨rfl, removable⟩
        exact ⟨rfl, extend ⟨⟨present, opened⟩, removable⟩⟩
      · rintro _ _ ⟨rfl, stuck⟩
        exact ⟨rfl, fun all => stuck (all directory_name listed).2⟩
    · obtain rfl := Bool.not_eq_true _ ▸ missing
      exact ⟨rfl, extend ⟨⟨false, opened⟩, .of_absent (List.cons_ne_nil _ _) (absent_of_missing opened)⟩⟩
    · refine ⟨rfl, fun all => ?_⟩
      obtain ⟨present, opened⟩ := (all directory_name listed).1
      rw [failed] at opened
      cases opened
  exact Prog.wp_forEach_done each ⟨rfl, nofun⟩

theorem removeRecords_real (removable : RecordsRemovable project_name state) :
    (removeRecords project_name false).wp (Cut (recordPaths project_name) state)
      (fun _ after => after = state.remove (recordPaths project_name)) (fun _ _ => False) state := by
  have each : ∀ earlier directory_name later, recordDirectories = earlier ++ directory_name :: later →
      ∀ now, now = state.remove (earlier.map (recordPath project_name)) →
      (do
        let present ← Prog.reads (·.openPrivateDirectoryAt [directory_name])
        .whenever present (removeEntryAt false kLevels (recordPath project_name directory_name)) :
        Prog MetadataState String Unit).wp (Cut (recordPaths project_name) state)
        (fun _ after => after = state.remove ((earlier ++ [directory_name]).map (recordPath project_name)))
        (fun _ _ => False) now := by
    rintro earlier directory_name later split _ rfl
    have listed : directory_name ∈ recordDirectories := split ▸ List.mem_append_right _ List.mem_cons_self
    obtain ⟨⟨present, opened⟩, good⟩ := removable directory_name listed
    have same : (state.remove (earlier.map (recordPath project_name))).tree.entry [directory_name]
        = state.tree.entry [directory_name] := by
      refine Tree.entry_kept ?_
      rintro ⟨start, member, above⟩
      obtain ⟨other, _, rfl⟩ := List.mem_map.mp member
      have long := above.length_le
      simp [recordPath] at long
    have now_opened : (state.remove (earlier.map (recordPath project_name))).openPrivateDirectoryAt [directory_name]
        = .ok present := by
      unfold MetadataState.openPrivateDirectoryAt at opened ⊢
      rw [same]
      exact opened
    have last : (state.remove (earlier.map (recordPath project_name))).remove [recordPath project_name directory_name]
        = state.remove ((earlier ++ [directory_name]).map (recordPath project_name)) := by
      rw [remove_remove, List.map_append]
      rfl
    have known : ∀ other ∈ earlier ++ [directory_name], recordPath project_name other ∈ recordPaths project_name := by
      intro other member
      refine List.mem_map_of_mem ?_
      rw [split]
      rcases List.mem_append.mp member with before | final
      · exact List.mem_append_left _ before
      · exact List.mem_append_right _ (List.mem_singleton.mp final ▸ List.mem_cons_self)
    rw [Prog.wp_bind]
    refine Prog.wp_reads (fun found reopened => Prog.wp_whenever (fun _ => ?_) (fun missing => ?_)) (fun error failed => ?_)
    · refine Prog.wp_mono (removeEntryAt_real (List.cons_ne_nil _ _) good.remove) ?_ ?_ (fun _ _ dead => dead)
      · rintro _ ⟨removed, below, rfl⟩
        refine ⟨earlier.map (recordPath project_name) ++ removed, fun gone member => ?_, remove_remove⟩
        rcases List.mem_append.mp member with first | second
        · obtain ⟨other, before, rfl⟩ := List.mem_map.mp first
          exact below_self (known other (List.mem_append_left _ before))
        · obtain ⟨start, single, above⟩ := below gone second
          rw [List.mem_singleton] at single
          subst single
          exact ⟨_, known directory_name (List.mem_append_right _ (List.mem_singleton_self _)), above⟩
      · rintro _ _ rfl
        exact last
    · obtain rfl := Bool.not_eq_true _ ▸ missing
      exact (nothing_below (List.cons_ne_nil _ _) (absent_of_missing reopened)).symm.trans last
    · rw [now_opened] at failed
      cases failed
  exact Prog.wp_forEach_done each remove_none.symm

end

end CkGit.Metadata
