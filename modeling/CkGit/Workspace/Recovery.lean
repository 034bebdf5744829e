import CkGit.Workspace.Cleared
import CkGit.Workspace.Runs

/-!
Recovery after a restart: every workspace with its marker is removed, and a new
one is made.
-/
namespace CkGit.Workspace
open Base

variable {world : World} {files other : FileSystem} {now name : Bytes} {path : Path}

theorem markerPath_ne_nil : markerPath name ≠ [] := nofun

theorem marker_below : [name] <+: markerPath name := ⟨[markerName], rfl⟩

/-- A workspace of an earlier boot session, within the limits of the clearing. -/
structure Leftover (files : FileSystem) (now name : Bytes) : Prop where
  job : isJobName name = true
  directory : files.get [name] = some .directory
  marked : ∃ boot, markerOf files name = .ok boot ∧ boot ≠ now
  shallow : Shallow files [name] kLevels
  few : census (doomed [name] [markerName]) files ≤ 1000000

theorem Leftover.sifted {keep : Path → Bool} (left : Leftover files now name) (sifted : Sifted keep files other)
    (kept : ∀ path, [name] <+: path → keep path = true) : Leftover other now name where
  job := left.job
  directory := by rw [sifted.get (by simp), if_pos (kept _ List.prefix_rfl), left.directory]
  marked := by
    obtain ⟨boot, read, differs⟩ := left.marked
    refine ⟨boot, (markerOf_congr ?_).trans read, differs⟩
    rw [sifted.get markerPath_ne_nil, if_pos (kept _ marker_below)]
  shallow := left.shallow.sifted sifted
  few := by
    rw [census_sifted sifted]
    exact Nat.le_trans (census_le fun path both => (Bool.and_eq_true_iff.mp both).1) left.few

theorem markerOf_file {boot : Bytes} (read : markerOf files name = .ok boot) :
    ∃ value, files.get (markerPath name) = some (.file value) := by
  rw [markerOf] at read
  split at read
  · next value there => exact ⟨value, there⟩
  · cases read

section
variable {error : String} (willing : world.Willing)
include willing

/-- The marker and the directory are all that is left. -/
theorem removeWorkspace_completes (directory : files.get [name] = some .directory)
    (marker : ∃ value, files.get (markerPath name) = some (.file value))
    (only : ∀ entry, files.get [name, entry] ≠ none → entry = markerName) :
    Completes now (removeWorkspace world name error) files fun _ g => Sifted (fun path => !atOrBelow [name] path) files g := by
  obtain ⟨value, there⟩ := marker
  have apart : ¬ markerPath name <+: [name] := fun inside => absurd inside.length_le (by simp [markerPath])
  refine .next (checked_completes willing) fun _ => ?_
  refine (unlink_completes willing (by simp [there]) (by simp [there])).bind fun _ g same => ?_
  subst same
  refine .next (checked_completes willing) fun _ => ?_
  refine .next (checked_completes willing) fun _ => ?_
  refine (rmdir_completes willing ?_ ?_ (by simp)).bind fun _ g same => ?_
  · rw [FileSystem.get_removeTree markerPath_ne_nil, if_neg apart, directory]
  · refine List.eq_nil_iff_forall_not_mem.mpr fun entry member => mem_namesIn.mp member ?_
    rw [FileSystem.get_removeTree markerPath_ne_nil]
    split
    · rfl
    · next outside =>
      by_contra found
      exact outside (by rw [only entry found]; exact List.prefix_rfl)
  · subst same
    refine (checked_completes willing).mono fun _ g same => ?_
    subst same
    refine sifted_removeTree.trans sifted_removeTree fun path => ?_
    by_cases inside : [name] <+: path
    · simp [atOrBelow, inside]
    · have outside : ¬ markerPath name <+: path := fun deep => inside (marker_below.trans deep)
      simp [atOrBelow, inside, outside]

theorem reconcileWorkspace_completes (left : Leftover files now name) :
    Completes now (reconcileWorkspace world now name) files fun _ g => Sifted (fun path => !atOrBelow [name] path) files g := by
  obtain ⟨boot, read, differs⟩ := left.marked
  obtain ⟨value, there⟩ := markerOf_file read
  refine .next (requireDirectory_completes willing left.directory) fun _ => ?_
  have marked : Completes now (readMarker world name) files fun marked g => marked = boot ∧ g = files := by
    refine .next (checked_completes willing) fun _ => ?_
    exact .reads (fun host same => by rw [same, read]) ⟨rfl, rfl⟩
  refine marked.bind fun marked g held => ?_
  obtain ⟨rfl, rfl⟩ := held
  simp only [if_neg differs]
  refine .next (checked_completes willing) fun _ => ?_
  refine (clearDirectory_completes willing (by decide) left.shallow (by simpa using left.few)).bind fun _ h cleared => ?_
  have kept : ∀ path, doomed [name] [markerName] path = false → path ≠ [] → h.get path = g.get path := by
    intro path stays below
    rw [cleared.1.get below, if_pos (by rw [stays]; rfl)]
  have marker_stays : h.get (markerPath name) = g.get (markerPath name) :=
    kept _ (by simp [doomed, markerPath]) markerPath_ne_nil
  refine (removeWorkspace_completes willing ?_ ⟨value, marker_stays.trans there⟩ fun entry found => ?_).mono
    fun _ last removed => cleared.1.trans removed fun path => ?_
  · exact (kept _ (by simp [doomed]) (by simp)).trans left.directory
  · rw [cleared.1.get (by simp)] at found
    split at found
    · next stays =>
      by_contra other
      simp [doomed, Ne.symm other] at stays
    · exact absurd rfl found
  · by_cases inside : [name] <+: path <;> simp [doomed, atOrBelow, inside]

theorem validateRunnerLock_completes (there : ∃ value, files.get [runnerLock] = some (.file value)) :
    Completes now (validateRunnerLock world) files fun _ g => g = files := by
  obtain ⟨value, there⟩ := there
  refine .next (checked_completes willing) fun _ => .check fun host same => ?_
  rw [same, there]

/-- The work root holds the lock of the runner and leftovers. -/
def Known (files : FileSystem) (now name : Bytes) : Prop :=
  (name = runnerLock ∧ ∃ value, files.get [runnerLock] = some (.file value)) ∨ Leftover files now name

/-- The workspaces of a list go. -/
def jobs (names : List Bytes) : List Bytes := names.filter (· ≠ runnerLock)

theorem reconcileEntries_completes {names : List Bytes} (once : names.Nodup) (known : ∀ name ∈ names, Known files now name) :
    Completes now (Prog.forEach names (reconcileEntry world now)) files fun _ g =>
      Sifted (fun path => !among [] (jobs names) path) files g := by
  induction names generalizing files with
  | nil => exact .done (sifted_refl.congr fun path _ _ => by simp [among, jobs])
  | cons name rest ih =>
    obtain ⟨new, rest_once⟩ := List.nodup_cons.mp once
    rcases known name List.mem_cons_self with ⟨rfl, there⟩ | left
    · have same : jobs (runnerLock :: rest) = jobs rest := List.filter_cons_of_neg (by simp)
      rw [same]
      refine .next ?_ fun _ => ih rest_once fun other member => known other (List.mem_cons_of_mem _ member)
      rw [reconcileEntry, if_pos rfl]
      exact validateRunnerLock_completes willing there
    · have plain : name ≠ runnerLock := isJobName_ne left.job
      have same : jobs (name :: rest) = name :: jobs rest := List.filter_cons_of_pos (by simpa using plain)
      rw [same]
      have entry : Completes now (reconcileEntry world now name) files fun _ g =>
          Sifted (fun path => !atOrBelow [name] path) files g := by
        rw [reconcileEntry, if_neg plain]
        exact .next (.accept (by simp [left.job])) fun _ => reconcileWorkspace_completes willing left
      refine entry.bind fun _ g sifted => ?_
      refine (ih rest_once fun other member => ?_).mono fun _ last swept => sifted.trans swept fun path => ?_
      · have differs : other ≠ name := fun equal => new (equal ▸ member)
        have kept : ∀ path, [other] <+: path → (!atOrBelow [name] path) = true := by
          intro path inside
          have apart : ¬ [] ++ [name] <+: path := apart_entries differs inside
          simpa [atOrBelow] using apart
        rcases known other (List.mem_cons_of_mem _ member) with ⟨lock, value, there⟩ | left'
        · refine .inl ⟨lock, value, ?_⟩
          rw [sifted.get (by simp), if_pos (kept _ (lock ▸ List.prefix_rfl)), there]
        · exact .inr (left'.sifted sifted kept)
      · rw [among_cons, Bool.not_or]
        rfl

/-- All leftovers go, and nothing else does. -/
theorem reconcilePreviousBoot_completes (known : ∀ name, files.get [name] ≠ none → Known files now name) :
    Completes now (reconcilePreviousBoot world now) files fun _ g =>
      ∀ name, g.get [name] = if name = runnerLock then files.get [name] else none := by
  refine .next (checked_completes willing) fun _ => ?_
  refine .bind (.reading fun g => namesIn g []) fun names g read => ?_
  obtain ⟨rfl, rfl⟩ := read
  refine (reconcileEntries_completes willing (nodup_namesIn ..) fun name member => known name (mem_namesIn.mp member)).bind
    fun _ h sifted => ?_
  have left : ∀ name, h.get [name] = if name = runnerLock then g.get [name] else none := by
    intro name
    rw [sifted.get (by simp)]
    by_cases lock : name = runnerLock
    · rw [if_pos lock, if_pos]
      rw [Bool.not_eq_true', among, decide_eq_false_iff_not]
      rintro ⟨entry, member, inside⟩
      have same : entry = name := (List.cons_prefix_cons.mp inside).1
      exact absurd (same.trans lock) (by simpa using (List.mem_filter.mp member).2)
    · rw [if_neg lock]
      by_cases there : g.get [name] = none
      · rw [there, ite_self]
      · rw [if_neg]
        rw [Bool.not_eq_true', Bool.not_eq_false, among, decide_eq_true_iff]
        exact ⟨name, List.mem_filter.mpr ⟨mem_namesIn.mpr there, by simpa using lock⟩, List.prefix_rfl⟩
  refine .bind (.reading fun g => namesIn g []) fun names last read => ?_
  obtain ⟨rfl, rfl⟩ := read
  have locks : ∀ name ∈ namesIn last [], name = runnerLock ∧ ∃ value, last.get [runnerLock] = some (.file value) := by
    intro name member
    have there : last.get [name] ≠ none := mem_namesIn.mp member
    have lock : name = runnerLock := by
      by_contra other
      exact there ((left name).trans (if_neg other))
    subst lock
    refine ⟨rfl, ?_⟩
    have same : last.get [runnerLock] = g.get [runnerLock] := (left runnerLock).trans (if_pos rfl)
    rw [same] at there ⊢
    rcases known runnerLock there with ⟨_, found⟩ | leftover
    · exact found
    · exact absurd rfl (isJobName_ne leftover.job)
  suffices checked : ∀ names : List Bytes,
      (∀ name ∈ names, name = runnerLock ∧ ∃ value, last.get [runnerLock] = some (.file value)) →
      Completes now (Prog.forEach names fun name =>
        if name = runnerLock then validateRunnerLock world
        else Prog.throw "VM work root still contains unreconciled data") last fun _ f => f = last from
    (checked _ locks).mono fun _ f same => same ▸ left
  intro names
  induction names with
  | nil => exact fun _ => .done rfl
  | cons name rest ih =>
    intro locks
    obtain ⟨lock, there⟩ := locks name List.mem_cons_self
    refine .next ?_ fun _ => ih fun other member => locks other (List.mem_cons_of_mem _ member)
    dsimp only
    rw [if_pos lock]
    exact validateRunnerLock_completes willing there

end
end CkGit.Workspace
