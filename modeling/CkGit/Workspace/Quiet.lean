import CkGit.Workspace.System

/-!
What every state of the machine satisfies, whatever its helpers do, and when the
files of a workspace may be changed.
-/
namespace CkGit.Workspace
open Base

variable {first files other : FileSystem} {host next : Host} {now name boot : Bytes} {path : Path}

theorem get_unlinked (below : path ≠ []) (place : Path) :
    (unlinked files path).get place = files.get place
      ∨ (path <+: place ∧ (unlinked files path).get place = none) := by
  unfold unlinked
  split
  · exact .inl rfl
  · rw [FileSystem.get_removeTree below]
    split
    · next inside => exact .inr ⟨inside, rfl⟩
    · exact .inl rfl

theorem get_withoutDirectory (below : path ≠ []) (place : Path) :
    (withoutDirectory files path).get place = files.get place
      ∨ (path <+: place ∧ (withoutDirectory files path).get place = none) := by
  unfold withoutDirectory
  split
  · rw [FileSystem.get_removeTree below]
    split
    · next inside => exact .inr ⟨inside, rfl⟩
    · exact .inl rfl
  · exact .inl rfl

theorem get_place_other {node : Node} {place : Path} (differs : place ≠ path) :
    (files.place path node).get place = files.get place := by
  by_cases free : files.get path.dropLast = some .directory ∧ files.get path ≠ some .directory
  · rw [FileSystem.get_place free.1 free.2, if_neg differs]
  · rw [FileSystem.place, dif_neg free]

theorem mem_namesIn {dir : Path} : name ∈ namesIn files dir ↔ files.get (dir ++ [name]) ≠ none := by
  rw [FileSystem.get_below (by simp), namesIn, List.mem_filterMap]
  constructor
  · rintro ⟨⟨place, node⟩, member, read⟩
    split at read
    · next same =>
      have whole : place = dir ++ [name] := by
        obtain ⟨front, rfl⟩ := List.getLast?_eq_some_iff.mp read
        rw [List.dropLast_concat] at same
        rw [same]
      rw [← whole, Assoc.get_of_mem files.once member]
      simp
    · cases read
  · intro there
    obtain ⟨node, found⟩ := Option.ne_none_iff_exists'.mp there
    exact ⟨_, Assoc.mem_of_get found, by simp⟩

theorem markerOf_congr (same : other.get (markerPath name) = files.get (markerPath name)) :
    markerOf other name = markerOf files name := by rw [markerOf, markerOf, same]

theorem markerOf_absent (absent : files.get [name] = none) : markerOf files name ≠ .ok boot := by
  rw [markerOf, show markerPath name = [name] ++ [markerName] from rfl, FileSystem.get_vacant absent]
  exact nofun

/-- No guest or helper of the workspace is left. -/
def Host.Quiet (host : Host) (name : Bytes) : Prop := host.guest name ≠ .running ∧ host.helper name = none

/-- What holds in every state after the first files. -/
structure Inv (first : FileSystem) (now : Bytes) (host : Host) : Prop where
  here : host.boot = now
  held : ∀ name phase, host.helper name = some phase → phase ≠ .spawned → host.useLock name = some .helper
  ended : ∀ name, host.helper name = some .stopped ∨ host.helper name = some .proving → host.guest name ≠ .running
  proved : ∀ name, host.files.get (stoppedPath name) ≠ none →
    host.guest name ≠ .running ∧ (host.helper name = none ∨ host.helper name = some .proving)
  current : ∀ name, host.helper name ≠ none ∨ host.guest name = .running → markerOf host.files name = .ok host.boot
  marked : ∀ name boot, markerOf host.files name = .ok boot → name ∈ host.made ∧ boot ∈ host.boots
  booted : host.boot ∈ host.boots
  valid : ValidBoot host.boot
  named : ∀ name ∈ host.made, isJobName name = true
  /-- At most one workspace is there. -/
  single : ∀ name ∈ host.made, ∀ other ∈ host.made,
    host.files.get [name] ≠ none → host.files.get [other] ≠ none → name = other
  known : ∀ name node, host.files.get [name] = some node →
    (name ∈ host.made ∧ node = .directory) ∨ first.get [name] = some node
  /-- What was there at first stays. -/
  kept : ∀ path node, first.get path = some node → host.files.get path = some node
  apart : ∀ name ∈ host.made, first.get [name] = none

namespace Inv

theorem quiet_of_marker (inv : Inv first now host) (differs : markerOf host.files name ≠ .ok host.boot) :
    host.Quiet name :=
  ⟨fun running => differs (inv.current name (.inr running)),
    by_contra fun helper => differs (inv.current name (.inl helper))⟩

/-- Under the lock of the runner a proof is the last thing of a helper. -/
theorem quiet_of_proof (inv : Inv first now host) (locked : host.useLock name = some .runner)
    (proof : host.files.get (stoppedPath name) ≠ none) : host.Quiet name := by
  obtain ⟨off, gone | proving⟩ := inv.proved name proof
  · exact ⟨off, gone⟩
  · have held := inv.held name _ proving nofun
    rw [locked] at held
    cases held

theorem vacant_of_made (inv : Inv first now host) (made : name ∈ host.made) (inside : [name] <+: path) :
    first.get path = none := by
  obtain ⟨rest, rfl⟩ := inside
  exact FileSystem.get_vacant (inv.apart name made) rest

/-- The files of one workspace may change once it is quiet. -/
theorem under (inv : Inv first now host) (quiet : host.Quiet name) (made : name ∈ host.made)
    (same : ∀ path, ¬ [name] <+: path → files.get path = host.files.get path)
    (top : files.get [name] = host.files.get [name] ∨ files.get [name] = none)
    (read : ∀ boot, markerOf files name = .ok boot → markerOf host.files name = .ok boot ∨ boot = host.boot) :
    Inv first now { host with files := files } := by
  have apart : ∀ {other : Bytes}, other ≠ name → ∀ rest, files.get (other :: rest) = host.files.get (other :: rest) :=
    fun differs rest => same _ fun inside => differs (List.cons_prefix_cons.mp inside).1.symm
  have marker : ∀ {other : Bytes}, other ≠ name → markerOf files other = markerOf host.files other :=
    fun differs => markerOf_congr (apart differs _)
  refine { inv with proved := ?_, current := ?_, marked := ?_, single := ?_, known := ?_, kept := ?_ }
  · intro other there
    by_cases differs : other = name
    · exact differs ▸ ⟨quiet.1, .inl quiet.2⟩
    · exact inv.proved other (apart differs _ ▸ there)
  · intro other busy
    by_cases differs : other = name
    · subst differs
      exact busy.elim (fun helper => absurd quiet.2 helper) fun running => absurd running quiet.1
    · exact (marker differs).trans (inv.current other busy)
  · intro other boot there
    by_cases differs : other = name
    · subst differs
      rcases read boot there with before | rfl
      · exact inv.marked other boot before
      · exact ⟨made, inv.booted⟩
    · exact inv.marked other boot (marker differs ▸ there)
  · have before : ∀ other, files.get [other] ≠ none → host.files.get [other] ≠ none := by
      intro other there
      by_cases differs : other = name
      · subst differs
        rcases top with unchanged | gone
        · exact unchanged ▸ there
        · exact absurd gone there
      · exact apart differs [] ▸ there
    exact fun one is_made two also there too => inv.single one is_made two also (before one there) (before two too)
  · intro other node there
    by_cases differs : other = name
    · subst differs
      rcases top with unchanged | gone
      · exact inv.known other node (unchanged ▸ there)
      · rw [gone] at there
        cases there
    · exact inv.known other node (apart differs [] ▸ there)
  · intro path node there
    have outside : ¬ [name] <+: path := fun inside => by
      rw [inv.vacant_of_made made inside] at there
      cases there
    exact (same path outside).trans (inv.kept path node there)

/-- Changes below a directory of a workspace that leave its marker and its proof. -/
theorem below {dir : Path} {kept : List Path} (inv : Inv first now host) (made : name ∈ host.made)
    (deep : [name] <+: dir) (marker : ¬ dir <+: markerPath name) (longer : dir ≠ [name])
    (proof : ¬ dir <+: stoppedPath name ∨ stoppedPath name ∈ kept)
    (changed : ChangedBelow dir kept host.files files) : Inv first now { host with files := files } := by
  have apart : ∀ path, ¬ [name] <+: path → files.get path = host.files.get path :=
    fun path outside => changed path (.inl fun inside => outside (deep.trans inside))
  have tops : ∀ other : Bytes, files.get [other] = host.files.get [other] := by
    intro other
    refine changed _ (.inl fun inside => longer ?_)
    have length := inside.length_le
    obtain ⟨rest, rfl⟩ := deep
    obtain rfl : rest = [] := by simpa using length
    rfl
  have markers : ∀ other, markerOf files other = markerOf host.files other := by
    intro other
    refine markerOf_congr ?_
    by_cases same : other = name
    · exact changed _ (.inl (same ▸ marker))
    · exact apart _ fun inside => same (List.cons_prefix_cons.mp inside).1.symm
  have proofs : ∀ other, files.get (stoppedPath other) = host.files.get (stoppedPath other) := by
    intro other
    by_cases same : other = name
    · exact changed _ (same ▸ proof.elim .inl fun kept => .inr (.inr kept))
    · exact apart _ fun inside => same (List.cons_prefix_cons.mp inside).1.symm
  refine { inv with proved := ?_, current := ?_, marked := ?_, single := ?_, known := ?_, kept := ?_ }
  · exact fun other there => inv.proved other (proofs other ▸ there)
  · exact fun other busy => (markers other).trans (inv.current other busy)
  · exact fun other boot there => inv.marked other boot (markers other ▸ there)
  · exact fun one is_made two also there too =>
      inv.single one is_made two also (tops one ▸ there) (tops two ▸ too)
  · exact fun other node there => inv.known other node (tops other ▸ there)
  · intro path node there
    have outside : ¬ [name] <+: path := fun inside => by
      rw [inv.vacant_of_made made inside] at there
      cases there
    exact (apart path outside).trans (inv.kept path node there)

theorem made_of_busy (inv : Inv first now host) (busy : host.helper name ≠ none ∨ host.guest name = .running) :
    name ∈ host.made := (inv.marked name _ (inv.current name busy)).1

/-- A proof is put there by the helper that holds the lock. -/
theorem place_proof (inv : Inv first now host) {content : Bytes} (quiet : host.guest name ≠ .running)
    (proving : host.helper name = some .proving) :
    Inv first now { host with files := host.files.place (stoppedPath name) (.file content) } := by
  have apart : ∀ path, path ≠ stoppedPath name →
      (host.files.place (stoppedPath name) (.file content)).get path = host.files.get path :=
    fun path differs => get_place_other differs
  have markers : ∀ other, markerOf (host.files.place (stoppedPath name) (.file content)) other
      = markerOf host.files other := fun other => markerOf_congr (apart _ nofun)
  refine { inv with proved := ?_, current := ?_, marked := ?_, single := ?_, known := ?_, kept := ?_ }
  · intro other there
    by_cases same : other = name
    · subst same
      exact ⟨quiet, .inr proving⟩
    · refine inv.proved other (apart _ (fun equal => same ?_) ▸ there)
      exact (List.cons.inj equal).1
  · exact fun other busy => (markers other).trans (inv.current other busy)
  · exact fun other boot there => inv.marked other boot (markers other ▸ there)
  · exact fun one is_made two also there too =>
      inv.single one is_made two also (apart [one] nofun ▸ there) (apart [two] nofun ▸ too)
  · exact fun other node there => inv.known other node (apart [other] nofun ▸ there)
  · intro path node there
    refine (apart path fun same => ?_).trans (inv.kept path node there)
    subst same
    have busy : host.helper name ≠ none := by simp [proving]
    have vacant : first.get (stoppedPath name) = none := inv.vacant_of_made (inv.made_of_busy (.inl busy)) ⟨_, rfl⟩
    rw [vacant] at there
    cases there

/-- The helper of one workspace goes on. -/
theorem move (inv : Inv first now host) {phase : Helper} {guest : Guest} {locks : Bytes → Option Holder}
    (busy : host.helper name ≠ none)
    (held : phase ≠ .spawned → locks name = some .helper)
    (others : ∀ other, other ≠ name → locks other = host.useLock other)
    (ended : phase = .stopped ∨ phase = .proving → guest ≠ .running)
    (proved : host.files.get (stoppedPath name) ≠ none → guest ≠ .running ∧ phase = .proving) :
    Inv first now { host with
      helper := Function.update host.helper name (some phase)
      guest := Function.update host.guest name guest
      useLock := locks } := by
  have marker := inv.current name (.inl busy)
  refine { inv with held := ?_, ended := ?_, proved := ?_, current := ?_ }
  · intro other phase' there late
    dsimp only at there ⊢
    by_cases same : other = name
    · subst same
      rw [Function.update_self] at there
      cases there
      exact held late
    · rw [Function.update_of_ne same] at there
      exact (others other same).trans (inv.held other phase' there late)
  · intro other late
    dsimp only at late ⊢
    by_cases same : other = name
    · subst same
      simp only [Function.update_self, Option.some_inj] at late ⊢
      exact ended late
    · rw [Function.update_of_ne same] at late ⊢
      exact inv.ended other late
  · intro other there
    dsimp only at there ⊢
    by_cases same : other = name
    · subst same
      simp only [Function.update_self]
      exact ⟨(proved there).1, .inr (congrArg some (proved there).2)⟩
    · rw [Function.update_of_ne same, Function.update_of_ne same]
      exact inv.proved other there
  · intro other busy
    by_cases same : other = name
    · exact same ▸ marker
    · simp only [Function.update_of_ne same] at busy
      exact inv.current other busy

/-- A helper that is gone leaves the lock it had on its workspace. -/
theorem exit (inv : Inv first now host) (name : Bytes) : Inv first now { host with
    helper := Function.update host.helper name none
    useLock := if host.useLock name = some .helper then Function.update host.useLock name none else host.useLock } := by
  have helper : ∀ other phase, Function.update host.helper name none other = some phase →
      other ≠ name ∧ host.helper other = some phase := by
    intro other phase there
    by_cases same : other = name
    · subst same
      rw [Function.update_self] at there
      cases there
    · exact ⟨same, by rwa [Function.update_of_ne same] at there⟩
  refine { inv with held := ?_, ended := ?_, proved := ?_, current := ?_ }
  · intro other phase there late
    have held := inv.held other phase (helper other phase there).2 late
    dsimp only
    split
    · rwa [Function.update_of_ne (helper other phase there).1]
    · exact held
  · intro other late
    exact inv.ended other (late.imp (fun there => (helper other _ there).2) fun there => (helper other _ there).2)
  · intro other there
    obtain ⟨off, phase⟩ := inv.proved other there
    refine ⟨off, ?_⟩
    dsimp only
    by_cases same : other = name
    · exact .inl (same ▸ Function.update_self ..)
    · exact phase.imp (fun gone => by rwa [Function.update_of_ne same]) fun proving => by rwa [Function.update_of_ne same]
  · intro other busy
    refine inv.current other (busy.imp_left fun there => ?_)
    obtain ⟨phase, found⟩ := Option.ne_none_iff_exists'.mp there
    rw [(helper other phase found).2]
    exact nofun

/-- Helpers and guests keep the invariant. -/
theorem helps (inv : Inv first now host) (step : Helps host next) : Inv first now next := by
  cases step with
  | @lock name content waiting there free =>
    have unproved : host.files.get (stoppedPath name) = none := by_contra fun proof => by
      rcases (inv.proved name proof).2 with gone | proving
      · rw [waiting] at gone
        cases gone
      · rw [waiting] at proving
        cases proving
    have moved : Inv first now { host with
        helper := Function.update host.helper name (some .locked)
        guest := Function.update host.guest name (host.guest name)
        useLock := Function.update host.useLock name (some .helper) } :=
      inv.move (by simp [waiting]) (fun _ => Function.update_self ..)
        (fun other differs => Function.update_of_ne differs ..) nofun fun proof => absurd unproved proof
    rwa [Function.update_eq_self] at moved
  | @start name locked unproved =>
    exact inv.move (by simp [locked]) (fun _ => inv.held name _ locked nofun) (fun _ _ => rfl) nofun
      fun proof => absurd unproved proof
  | @work name files running below =>
    refine inv.below (inv.made_of_busy (.inr running)) ⟨[vmName], rfl⟩ ?_ nofun (.inr List.mem_cons_self) below
    intro inside
    exact absurd (List.cons_prefix_cons.mp (List.cons_prefix_cons.mp inside).2).1 (by decide)
  | @stop name started =>
    refine inv.move (by simp [started]) (fun _ => inv.held name _ started nofun) (fun _ _ => rfl)
      (fun _ => nofun) fun proof => ?_
    rcases (inv.proved name proof).2 with gone | proving
    · rw [started] at gone
      cases gone
    · rw [started] at proving
      cases proving
  | @prove name stopped unproved =>
    have off := inv.ended name (.inl stopped)
    have moved : Inv first now { host with
        helper := Function.update host.helper name (some .proving)
        guest := Function.update host.guest name (host.guest name) } :=
      inv.move (by simp [stopped]) (fun _ => inv.held name _ stopped nofun) (fun _ _ => rfl) (fun _ => off)
        fun proof => absurd unproved proof
    rw [Function.update_eq_self] at moved
    exact moved.place_proof off (Function.update_self ..)
  | @record name proving => exact inv.place_proof (inv.ended name (.inr proving)) proving
  | @exit name => exact inv.exit name

end Inv
end CkGit.Workspace
