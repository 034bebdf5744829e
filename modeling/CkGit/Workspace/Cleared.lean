import CkGit.Workspace.Quiet

/-!
Undisturbed runs: with nothing refused, a directory within the limits is cleared
to the last entry, and what is elsewhere stays.
-/
namespace CkGit.Workspace
open Base

variable {world : World} {files other : FileSystem} {now name : Bytes} {dir path : Path}

/-- Of the files those are left whose paths are kept. -/
def Sifted (keep : Path → Bool) (files other : FileSystem) : Prop :=
  other.nodes = files.nodes.filter fun entry => keep entry.1

theorem Sifted.get {keep : Path → Bool} (sifted : Sifted keep files other) (below : path ≠ []) :
    other.get path = if keep path then files.get path else none := by
  rw [FileSystem.get_below below, FileSystem.get_below below, sifted]
  split
  · next kept => exact Assoc.get_filter fun _ => kept
  · next gone =>
    refine Assoc.get_absent fun member => ?_
    obtain ⟨entry, inside, rfl⟩ := List.mem_map.mp member
    exact gone (List.mem_filter.mp inside).2

theorem Sifted.trans {last : FileSystem} {keep keep' both : Path → Bool} (sifted : Sifted keep files other)
    (more : Sifted keep' other last) (same : ∀ path, both path = (keep path && keep' path)) : Sifted both files last := by
  rw [Sifted, more, sifted, List.filter_filter]
  refine List.filter_congr fun entry _ => ?_
  rw [same, Bool.and_comm]

theorem sifted_refl : Sifted (fun _ => true) files files := by
  rw [Sifted, List.filter_eq_self.mpr fun _ _ => rfl]

theorem sifted_removeTree : Sifted (fun path => ¬ dir <+: path) files (files.removeTree dir) := rfl

/-- How many nodes there are of some kind. -/
def census (kind : Path → Bool) (files : FileSystem) : Nat := files.nodes.countP fun entry => kind entry.1

theorem census_sifted {keep kind : Path → Bool} (sifted : Sifted keep files other) :
    census kind other = census (fun path => kind path && keep path) files := by
  rw [census, census, sifted, List.countP_filter]

theorem census_le {kind wider : Path → Bool} (inside : ∀ path, kind path = true → wider path = true) :
    census kind files ≤ census wider files := List.countP_mono_left fun entry _ => inside entry.1

/-- Two kinds apart from each other. -/
theorem census_add {kind other whole : Path → Bool} (apart : ∀ path, kind path = true → other path = false)
    (split : ∀ path, whole path = (kind path || other path)) :
    census whole files = census kind files + census other files := by
  unfold census
  induction files.nodes with
  | nil => rfl
  | cons entry rest ih =>
    rw [List.countP_cons, List.countP_cons, List.countP_cons, ih, split]
    cases first : kind entry.1 with
    | true =>
      rw [apart _ first]
      simp
      omega
    | false =>
      cases other entry.1 with
      | true =>
        simp
        omega
      | false => simp

theorem census_pos {kind : Path → Bool} (there : files.get path ≠ none) (below : path ≠ []) (of_kind : kind path = true) :
    0 < census kind files := by
  obtain ⟨node, found⟩ := Option.ne_none_iff_exists'.mp there
  rw [FileSystem.get_below below] at found
  exact List.countP_pos_iff.mpr ⟨_, Assoc.mem_of_get found, of_kind⟩

/-- From these files and in this boot session the program runs to its end, whatever the rest of the machine is. -/
structure Completes (now : Bytes) {α : Type} (p : Call α) (files : FileSystem) (after : α → FileSystem → Prop) :
    Prop where
  runs : ∀ host : Host, host.files = files → host.boot = now →
    p.wp (fun _ => True) (fun a next => after a next.files ∧ next.boot = now) (fun _ _ => False) host

/-- No call is refused. -/
def World.Willing (world : World) : Prop := ∀ count, world.refuses count = false

namespace Completes
variable {α β : Type} {p : Call α} {after : α → FileSystem → Prop}

theorem mono {after' : α → FileSystem → Prop} (h : Completes now p files after) (weaker : ∀ a f, after a f → after' a f) :
    Completes now p files after' :=
  ⟨fun host same here => Prog.wp_mono (h.runs host same here) (fun _ _ => trivial)
    (fun a _ => And.imp_left (weaker a _)) fun _ _ none => none⟩

theorem bind {f : α → Call β} {final : β → FileSystem → Prop} (first : Completes now p files after)
    (rest : ∀ a g, after a g → Completes now (f a) g final) : Completes now (p >>= f) files final := by
  refine ⟨fun host same here => ?_⟩
  rw [Prog.wp_bind]
  exact Prog.wp_mono (first.runs host same here) (fun _ _ => trivial)
    (fun a next held => (rest a _ held.1).runs next rfl held.2) fun _ _ none => none

/-- A step that leaves the files. -/
theorem next {f : α → Call β} {final : β → FileSystem → Prop} (first : Completes now p files fun _ g => g = files)
    (rest : ∀ a, Completes now (f a) files final) : Completes now (p >>= f) files final :=
  first.bind fun a _ same => same ▸ rest a

theorem done {a : α} (holds : after a files) : Completes now (Prog.done a : Call α) files after :=
  ⟨fun host same here => by rw [Prog.wp_done, same]; exact ⟨holds, here⟩⟩

/-- A value that is read off the files. -/
theorem reading (f : FileSystem → α) :
    Completes now (Prog.gets fun host : Host => f host.files) files fun a g => a = f files ∧ g = files :=
  ⟨fun _ same here => ⟨⟨congrArg f same, same⟩, here⟩⟩

theorem modify {change : Host → Host} {after : Unit → FileSystem → Prop}
    (holds : ∀ host : Host, host.files = files → after () (change host).files ∧ (change host).boot = host.boot) :
    Completes now (Prog.modify change) files after :=
  ⟨fun host same here => ⟨trivial, (holds host same).1, (holds host same).2.trans here⟩⟩

theorem ofExcept {x : Except String α} {a : α} (accepted : x = .ok a) (holds : after a files) :
    Completes now (Prog.ofExcept x) files after := by
  subst accepted
  exact done holds

theorem reads {f : Host → Except String α} {a : α} (accepted : ∀ host : Host, host.files = files → f host = .ok a)
    (holds : after a files) : Completes now (Prog.reads f) files after :=
  ⟨fun host same here => Prog.wp_reads (fun b read => by
      rw [accepted host same] at read
      cases read
      exact ⟨same ▸ holds, here⟩)
    fun error read => by
      rw [accepted host same] at read
      cases read⟩

theorem accept {bad : Prop} [Decidable bad] {error : String} (good : ¬ bad) :
    Completes now (Prog.ofExcept (rejectIf bad error)) files fun _ g => g = files :=
  ofExcept (rejectIf_ok.mpr good : rejectIf bad error = .ok ()) rfl

/-- A check of what is there. -/
theorem check {f : Host → Except String Unit} (accepted : ∀ host : Host, host.files = files → f host = .ok ()) :
    Completes now (Prog.reads f) files fun _ g => g = files := reads accepted rfl

end Completes

section
variable {error : String} (willing : world.Willing)
include willing

theorem refused_completes : Completes now world.refused files fun refused g => refused = false ∧ g = files := by
  have read : Completes now (Prog.gets Host.calls) files fun _ g => g = files := ⟨fun _ same here => ⟨same, here⟩⟩
  refine read.next fun count => ?_
  have counted : Completes now (Prog.modify fun host : Host => { host with calls := count + 1 }) files
      fun _ g => g = files := .modify fun _ same => ⟨same, rfl⟩
  exact counted.next fun _ => .done ⟨willing count, rfl⟩

theorem checked_completes : Completes now (world.checked error) files fun _ g => g = files := by
  refine .bind (refused_completes willing) fun refused g held => ?_
  obtain ⟨rfl, rfl⟩ := held
  exact .done rfl

theorem requireDirectory_completes (there : files.get path = some .directory) :
    Completes now (world.requireDirectory path error) files fun _ g => g = files := by
  refine .next (checked_completes willing) fun _ => ?_
  exact .check fun host same => rejectIf_ok.mpr (by rw [same, there]; simp)

theorem unlink_completes (there : files.get path ≠ none) (plain : files.get path ≠ some .directory) :
    Completes now (world.unlink path error) files fun _ g => g = files.removeTree path := by
  refine .next (checked_completes willing) fun _ => ?_
  refine .next (.check fun host same => rejectIf_ok.mpr ?_) fun _ => ?_
  · rw [same]
    exact not_or.mpr ⟨there, plain⟩
  · refine .modify fun host same => ⟨?_, rfl⟩
    show unlinked host.files path = _
    rw [same, unlinked, if_neg plain]

theorem rmdir_completes (there : files.get path = some .directory) (empty : namesIn files path = []) (below : path ≠ []) :
    Completes now (world.rmdir path error) files fun _ g => g = files.removeTree path := by
  refine .next (checked_completes willing) fun _ => ?_
  have removed : Completes now
      (Prog.modify fun host : Host => { host with files := withoutDirectory host.files path }) files
      fun _ g => g = files.removeTree path := by
    refine .modify fun host same => ⟨?_, rfl⟩
    show withoutDirectory host.files path = _
    rw [same, withoutDirectory, if_pos ⟨there, empty⟩]
  refine removed.bind fun _ g same => ?_
  subst same
  refine .check fun host same => rejectIf_ok.mpr ?_
  rw [same, FileSystem.get_removeTree below, if_pos List.prefix_rfl]
  simp

end

/-- What goes when a directory is cleared. -/
def doomed (dir : Path) (preserve : List Bytes) (path : Path) : Bool :=
  dir <+: path ∧ path ≠ dir ∧ ∀ entry ∈ preserve, ¬ dir ++ [entry] <+: path

/-- What is at or below one of the entries. -/
def among (dir : Path) (names : List Bytes) (path : Path) : Bool := ∃ entry ∈ names, dir ++ [entry] <+: path

theorem entry_below {entry : Bytes} {rest : Path} : dir ++ [entry] <+: dir ++ name :: rest ↔ entry = name := by
  rw [List.prefix_append_right_inj, List.cons_prefix_cons]
  simp

theorem apart_entries {entry : Bytes} (differs : entry ≠ name) (inside : dir ++ [entry] <+: path) :
    ¬ dir ++ [name] <+: path := by
  obtain ⟨rest, rfl⟩ := inside
  rw [List.append_assoc, List.singleton_append, entry_below]
  exact differs.symm

theorem Sifted.congr {keep keep' : Path → Bool} (sifted : Sifted keep files other)
    (same : ∀ path, files.get path ≠ none → path ≠ [] → keep path = keep' path) : Sifted keep' files other := by
  rw [Sifted, sifted]
  refine List.filter_congr fun entry member => same entry.1 ?_ ?_
  · rw [FileSystem.get_below (files.rooted _ _ (Assoc.get_of_mem files.once member)).1,
      Assoc.get_of_mem files.once member]
    simp
  · exact (files.rooted _ _ (Assoc.get_of_mem files.once member)).1

/-- What is strictly below a directory is below one of its entries. -/
theorem doomed_eq_among (preserve : List Bytes) (there : files.get path ≠ none) :
    doomed dir preserve path = among dir ((namesIn files dir).filter (· ∉ preserve)) path := by
  rw [doomed, among, decide_eq_decide]
  constructor
  · rintro ⟨⟨rest, rfl⟩, below, preserved⟩
    cases rest with
    | nil => exact absurd (List.append_nil dir) below
    | cons entry rest =>
      refine ⟨entry, List.mem_filter.mpr ⟨mem_namesIn.mpr ?_, decide_eq_true fun kept => ?_⟩, entry_below.mpr rfl⟩
      · intro vacant
        rw [show dir ++ entry :: rest = (dir ++ [entry]) ++ rest by simp, FileSystem.get_vacant vacant] at there
        exact there rfl
      · exact preserved entry kept (entry_below.mpr rfl)
  · rintro ⟨entry, member, rest, rfl⟩
    have plain : entry ∉ preserve := of_decide_eq_true (List.mem_filter.mp member).2
    refine ⟨⟨[entry] ++ rest, by simp⟩, by simp, fun kept inside => ?_⟩
    intro also
    rw [List.append_assoc, List.singleton_append, entry_below] at also
    exact plain (also ▸ inside)

theorem census_congr {kind kind' : Path → Bool} (same : ∀ path, files.get path ≠ none → kind path = kind' path) :
    census kind files = census kind' files := by
  refine List.countP_congr fun entry member => ?_
  rw [same]
  rw [FileSystem.get_below (files.rooted _ _ (Assoc.get_of_mem files.once member)).1,
    Assoc.get_of_mem files.once member]
  simp

theorem nodup_namesIn (files : FileSystem) (dir : Path) : (namesIn files dir).Nodup := by
  unfold namesIn
  have once := files.once
  generalize files.nodes = nodes at once ⊢
  induction nodes with
  | nil => exact List.nodup_nil
  | cons entry rest ih =>
    rw [List.map_cons, List.nodup_cons] at once
    rw [List.filterMap_cons]
    split
    · exact ih once.2
    · next name read =>
      refine List.nodup_cons.mpr ⟨fun member => once.1 ?_, ih once.2⟩
      obtain ⟨other, inside, again⟩ := List.mem_filterMap.mp member
      have whole : ∀ place : Path × Node, (if place.1.dropLast = dir then place.1.getLast? else none) = some name →
          place.1 = dir ++ [name] := by
        intro place found
        split at found
        · next same =>
          obtain ⟨front, equal⟩ := List.getLast?_eq_some_iff.mp found
          rw [equal, List.dropLast_concat] at same
          rw [equal, same]
        · cases found
      rw [whole entry read, ← whole other again]
      exact List.mem_map_of_mem inside

/-- Directories nest so deep at most below this one. -/
def Shallow (files : FileSystem) (dir : Path) (levels : Nat) : Prop :=
  ∀ path, dir <+: path → files.get path = some .directory → path.length < dir.length + levels

theorem Shallow.sifted {keep : Path → Bool} {levels : Nat} (shallow : Shallow files dir levels)
    (sifted : Sifted keep files other) : Shallow other dir levels := by
  intro path inside there
  by_cases top : path = []
  · exact shallow path inside (top ▸ files.get_root)
  · rw [sifted.get top] at there
    split at there
    · exact shallow path inside there
    · cases there

/-- What is at a path or below. -/
def atOrBelow (place path : Path) : Bool := place <+: path

theorem among_cons (names : List Bytes) (path : Path) :
    among dir (name :: names) path = (atOrBelow (dir ++ [name]) path || among dir names path) := by
  simp [among, atOrBelow]

theorem census_among_cons {names : List Bytes} (new : name ∉ names) :
    census (among dir (name :: names)) files
      = census (atOrBelow (dir ++ [name])) files + census (among dir names) files := by
  refine census_add (fun path inside => ?_) fun path => ?_
  · rw [among, decide_eq_false_iff_not]
    rintro ⟨entry, member, also⟩
    have differs : entry ≠ name := fun equal => new (by rwa [← equal])
    exact apart_entries differs also (of_decide_eq_true inside)
  · exact among_cons names path

theorem census_below_lt (there : files.get path ≠ none) (below : path ≠ []) :
    census (doomed path []) files + 1 ≤ census (atOrBelow path) files := by
  have split : census (atOrBelow path) files = census (fun place => place = path) files + census (doomed path []) files := by
    refine census_add (fun place same => ?_) fun place => ?_
    · simp [doomed, of_decide_eq_true same]
    · by_cases same : place = path <;> simp [doomed, atOrBelow, same]
  have one : 0 < census (fun place => place = path) files := census_pos there below (by simp)
  omega

section
variable (willing : world.Willing)
include willing

/-- One entry goes with all that is below it. -/
theorem clearEntry_completes {levels entries : Nat} {preserve : List Bytes}
    (ih : ∀ {files : FileSystem} {dir : Path} {preserve : List Bytes} {entries : Nat}, 0 < levels →
      Shallow files dir levels → entries + census (doomed dir preserve) files ≤ 1000000 →
      Completes now (clearDirectory world false levels dir preserve entries) files fun after g =>
        Sifted (fun path => !doomed dir preserve path) files g ∧ after ≤ entries + census (doomed dir preserve) files)
    (plain : name ∉ preserve) (there : files.get (dir ++ [name]) ≠ none) (shallow : Shallow files dir (levels + 1))
    (room : entries + census (atOrBelow (dir ++ [name])) files ≤ 1000000) :
    Completes now (clearEntry world false (clearDirectory world false levels) dir preserve entries name) files
      fun after g => Sifted (fun path => !atOrBelow (dir ++ [name]) path) files g
        ∧ after ≤ entries + census (atOrBelow (dir ++ [name])) files := by
  have below : dir ++ [name] ≠ [] := by simp
  have counted := census_below_lt there below
  rw [clearEntry, if_neg plain]
  refine .next (.accept (by omega)) fun _ => ?_
  refine .next (.done rfl) fun _ => ?_
  refine .next (checked_completes willing) fun _ => ?_
  refine .bind (.reading fun g => g.get (dir ++ [name])) fun node g read => ?_
  obtain ⟨rfl, rfl⟩ := read
  have removed : Sifted (fun path => !atOrBelow (dir ++ [name]) path) g (g.removeTree (dir ++ [name])) :=
    sifted_removeTree.congr fun path _ _ => by simp [atOrBelow]
  split
  · next absent => exact absurd absent there
  · next directory =>
    have deeper : Shallow g (dir ++ [name]) levels := by
      intro path inside found
      have := shallow path ((List.prefix_append ..).trans inside) found
      rw [List.length_append, List.length_singleton]
      omega
    have some_level : 0 < levels := by
      have := deeper _ List.prefix_rfl directory
      omega
    refine .next (checked_completes willing) fun _ => ?_
    refine (ih some_level deeper (by omega)).bind fun after h cleared => ?_
    have top : h.get (dir ++ [name]) = some .directory := by
      rw [cleared.1.get below, if_pos (by simp [doomed]), directory]
    have empty : namesIn h (dir ++ [name]) = [] := by
      refine List.eq_nil_iff_forall_not_mem.mpr fun entry member => mem_namesIn.mp member ?_
      rw [cleared.1.get (by simp), if_neg (by simp [doomed])]
    refine (rmdir_completes willing top empty below).bind fun _ last same => ?_
    subst same
    refine .done ⟨cleared.1.trans sifted_removeTree fun path => ?_, by omega⟩
    by_cases inside : dir ++ [name] <+: path <;> simp [doomed, atOrBelow, inside]
  · next node plain found =>
    have file : g.get (dir ++ [name]) ≠ some .directory := fun directory => plain (Option.some.inj (found.symm.trans directory))
    refine (unlink_completes willing there file).bind fun _ last same => ?_
    subst same
    exact .done ⟨removed, by omega⟩

/-- A directory is cleared level by level, entry by entry, with what was found so far counted. -/
theorem clearDirectory_completes {levels : Nat} {preserve : List Bytes} {entries : Nat} (some_level : 0 < levels)
    (shallow : Shallow files dir levels) (room : entries + census (doomed dir preserve) files ≤ 1000000) :
    Completes now (clearDirectory world false levels dir preserve entries) files fun after g =>
      Sifted (fun path => !doomed dir preserve path) files g ∧ after ≤ entries + census (doomed dir preserve) files := by
  induction levels generalizing dir preserve entries files with
  | zero => cases some_level
  | succ levels ih =>
    refine .next (checked_completes willing) fun _ => ?_
    refine .bind (.reading fun g => namesIn g dir) fun names g read => ?_
    obtain ⟨rfl, rfl⟩ := read
    have loop : ∀ (names : List Bytes) (entries : Nat) (h : FileSystem), names.Nodup →
        (∀ name ∈ names, h.get (dir ++ [name]) ≠ none) → Shallow h dir (levels + 1) →
        entries + census (among dir (names.filter (· ∉ preserve))) h ≤ 1000000 →
        Completes now (Prog.accumulate names entries (clearEntry world false (clearDirectory world false levels) dir preserve))
          h fun after last => Sifted (fun path => !among dir (names.filter (· ∉ preserve)) path) h last
            ∧ after ≤ entries + census (among dir (names.filter (· ∉ preserve))) h := by
      intro names
      induction names with
      | nil =>
        intro entries h _ _ _ _
        refine .done ⟨sifted_refl.congr fun path _ _ => ?_, Nat.le_add_right ..⟩
        simp [among]
      | cons name rest more =>
        intro entries h once there shallow room
        obtain ⟨new, once⟩ := List.nodup_cons.mp once
        by_cases kept : name ∈ preserve
        · have same : (name :: rest).filter (· ∉ preserve) = rest.filter (· ∉ preserve) :=
            List.filter_cons_of_neg (by simpa using kept)
          rw [same] at room ⊢
          have passed : Completes now (clearEntry world false (clearDirectory world false levels) dir preserve entries name)
              h fun after last => after = entries ∧ last = h := by
            rw [clearEntry, if_pos kept]
            exact .done ⟨rfl, rfl⟩
          refine passed.bind fun after last held => ?_
          obtain ⟨rfl, rfl⟩ := held
          exact more after last once (fun other member => there other (List.mem_cons_of_mem _ member)) shallow room
        · have same : (name :: rest).filter (· ∉ preserve) = name :: rest.filter (· ∉ preserve) :=
            List.filter_cons_of_pos (by simpa using kept)
          have fresh : name ∉ rest.filter (· ∉ preserve) := fun member => new (List.mem_filter.mp member).1
          rw [same, census_among_cons fresh] at room
          rw [same, census_among_cons fresh]
          refine (clearEntry_completes willing ih kept (there name List.mem_cons_self) shallow (by omega)).bind
            fun after last held => ?_
          obtain ⟨sifted, counted⟩ := held
          have fewer : census (among dir (rest.filter (· ∉ preserve))) last
              ≤ census (among dir (rest.filter (· ∉ preserve))) h := by
            rw [census_sifted sifted]
            exact census_le fun path inside => (Bool.and_eq_true_iff.mp inside).1
          refine (more after last once (fun other member => ?_) (shallow.sifted sifted) (by omega)).mono
            fun final end_files finished => ⟨sifted.trans finished.1 fun path => ?_, by omega⟩
          · rw [sifted.get (by simp), if_pos]
            · exact there other (List.mem_cons_of_mem _ member)
            · have differs : other ≠ name := fun equal => new (equal ▸ member)
              have apart : ¬ dir ++ [name] <+: dir ++ [other] := apart_entries differs List.prefix_rfl
              simpa [atOrBelow] using apart
          · rw [among_cons, Bool.not_or]
    exact (loop _ _ _ (nodup_namesIn ..) (fun name => mem_namesIn.mp) shallow (by
      rwa [← census_congr fun path => doomed_eq_among preserve])).mono fun after last held =>
        ⟨held.1.congr fun path there _ => by rw [doomed_eq_among preserve there],
          by rw [census_congr fun path => doomed_eq_among preserve]; exact held.2⟩

end
end CkGit.Workspace
