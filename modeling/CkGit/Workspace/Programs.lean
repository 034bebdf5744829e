import CkGit.Workspace.Guarded

/-!
What the constructor, the recovery and the removal leave, with helpers at work.
-/
namespace CkGit.Workspace
open Base

variable {first : FileSystem} {now name boot : Bytes} {path : Path} {world : World} {before : Host → Prop} {error : String}

theorem clearStoppedWorkspace_runs {progress : Bool} :
    Runs first now (On first now name) (clearStoppedWorkspace world progress name) (fun _ => On first now name)
      (On first now name) := by
  have clear : ∀ dir preserve entries, [name] <+: dir →
      Runs first now (On first now name) (clearDirectory world progress kLevels dir preserve entries)
        (fun _ => On first now name) (On first now name) := fun dir preserve entries inside => clearDirectory_runs inside
  refine .next reflexive (clear [name] _ 0 List.prefix_rfl) fun entries => ?_
  refine .next reflexive (checked_runs lasts_on) fun _ => ?_
  refine .next reflexive (clear (vmPath name) _ entries ⟨[vmName], rfl⟩) fun _ => ?_
  refine .next reflexive (checked_runs lasts_on) fun _ => ?_
  refine .next reflexive (unlink_runs ⟨[vmName, stoppedName], rfl⟩) fun _ => ?_
  refine .next reflexive (unlink_runs ⟨[vmName, useLockName], rfl⟩) fun _ => ?_
  refine .next reflexive (checked_runs lasts_on) fun _ => ?_
  refine .next reflexive (rmdir_runs ⟨[vmName], rfl⟩) fun _ => ?_
  exact checked_runs lasts_on

theorem removeWorkspace_runs :
    Runs first now (On first now name) (removeWorkspace world name error) (fun _ => On first now name) (On first now name) := by
  refine .next reflexive (checked_runs lasts_on) fun _ => ?_
  refine .next reflexive (unlink_runs ⟨[markerName], rfl⟩) fun _ => ?_
  refine .next reflexive (checked_runs lasts_on) fun _ => ?_
  refine .next reflexive (checked_runs lasts_on) fun _ => ?_
  refine .next reflexive (rmdir_runs List.prefix_rfl) fun _ => ?_
  exact checked_runs lasts_on

/-- The runner has the use lock of a workspace that was made. -/
structure Locked (first : FileSystem) (now name : Bytes) (host : Host) : Prop where
  inv : Inv first now host
  locked : host.useLock name = some .runner
  made : name ∈ host.made

theorem Helps.useLock {s t : Host} (step : Helps s t) (locked : s.useLock name = some .runner) :
    t.useLock name = some .runner := by
  cases step with
  | @lock other content waiting there free =>
    refine (Function.update_of_ne (fun same => ?_) ..).trans locked
    rw [← same, locked] at free
    cases free
  | @exit other =>
    dsimp only
    split
    · next held =>
      refine (Function.update_of_ne (fun same => ?_) ..).trans locked
      rw [← same, locked] at held
      cases held
    · exact locked
  | _ => exact locked

theorem lasts_locked : Lasts first now (Locked first now name) where
  stable := stable_of_step fun _ _ step held =>
    ⟨held.inv.helps step, step.useLock held.locked, step.same.1 ▸ held.made⟩
  calls _ _ held := ⟨{ held.inv with }, held.locked, held.made⟩
  inv _ held := held.inv

theorem lasts_made : Lasts first now fun host => Inv first now host ∧ name ∈ host.made where
  stable := stable_of_step fun _ _ step held => ⟨held.1.helps step, step.same.1 ▸ held.2⟩
  calls _ _ held := ⟨{ held.1 with }, held.2⟩
  inv _ held := held.1

/-- Only helpers hold a lock on to their guest. -/
theorem Inv.locks {host : Host} {locks : Bytes → Option Holder} (inv : Inv first now host)
    (kept : ∀ other, host.useLock other = some .helper → locks other = some .helper) :
    Inv first now { host with useLock := locks } :=
  { inv with held := fun other phase there late => kept other (inv.held other phase there late) }

/-- The lock is had, besides what is known. -/
theorem lasts_taken (lasts : Lasts first now before) :
    Lasts first now fun host => before host ∧ host.useLock name = some .runner where
  stable := stable_of_step fun s t step held => ⟨lasts.stable s t (.single step) held.1, step.useLock held.2⟩
  calls host count held := ⟨lasts.calls host count held.1, held.2⟩
  inv host held := lasts.inv host held.1

theorem takeUseLock_runs (lasts : Lasts first now before)
    (kept : ∀ host locks, before host → Inv first now { host with useLock := locks } →
      before { host with useLock := locks }) :
    Runs first now before (takeUseLock world name error)
      (fun _ host => before host ∧ host.useLock name = some .runner) before := by
  refine .next reflexive (checked_runs lasts) fun _ => ?_
  refine .next reflexive (.reads lasts.stable (fun _ => lasts.stable) (fun _ _ held _ => held) fun _ held => held)
    fun _ => ?_
  refine .next reflexive (.modify lasts.stable lasts.stable fun s held => ?_) fun _ => ?_
  · split
    · next free =>
      have inv : Inv first now { s with useLock := Function.update s.useLock name (some .runner) } := by
        refine (lasts.inv s held).locks fun other helper => (Function.update_of_ne (fun same => ?_) ..).trans helper
        rw [← same, helper] at free
        cases free
      exact ⟨allowed_same rfl fun _ => inv, kept s _ held inv⟩
    · exact ⟨allowed_same rfl id, held⟩
  · refine .bind reflexive (m := fun _ host => before host ∧ host.useLock name = some .runner)
      (.reads lasts.stable (fun _ => (lasts_taken lasts).stable) (fun s _ held taken => ?_) fun _ held => held)
      fun _ => ?_
    · rw [rejectIf_ok, not_not] at taken
      exact ⟨held, taken⟩
    · exact (checked_runs (lasts_taken lasts)).mono (fun _ held => held) (fun _ _ held => held) fun _ held => held.1

theorem releaseUseLock_runs :
    Runs first now (On first now name) (releaseUseLock name) (fun _ => On first now name) (On first now name) := by
  refine .modify lasts_on.stable lasts_on.stable fun s on => ?_
  have inv : Inv first now (if s.useLock name = some .runner then
      { s with useLock := Function.update s.useLock name none } else s) := by
    split
    · next mine =>
      refine on.inv.locks fun other helper => (Function.update_of_ne (fun same => ?_) ..).trans helper
      rw [same, mine] at helper
      cases helper
    · exact on.inv
  refine ⟨allowed_same ?_ fun _ => inv, inv, ?_, ?_⟩
  · split <;> rfl
  · split <;> exact on.quiet
  · split <;> exact on.made

/-- A proof that is seen under the lock says that nothing is left of helper and guest. -/
theorem validStopMarker_runs :
    Runs first now (Locked first now name) (validStopMarker world name)
      (fun proved host => Locked first now name host ∧ (proved = true → On first now name host)) (Inv first now) := by
  have lasts : ∀ proved : Bool, Prog.Stable Meanwhile fun host =>
      Locked first now name host ∧ (proved = true → On first now name host) := fun _ s t meanwhile held =>
    ⟨lasts_locked.stable s t meanwhile held.1, fun proved => lasts_on.stable s t meanwhile (held.2 proved)⟩
  refine .bind reflexive ((refused_runs lasts_locked).mono (fun _ held => held) (fun _ _ held => held)
    fun _ held => held.inv) fun refused => ?_
  cases refused with
  | true => exact .done lasts_locked.stable fun _ held => ⟨held, nofun⟩
  | false =>
    refine .gets lasts_locked.stable lasts fun s held => ⟨held, fun proof => ?_⟩
    have there : s.files.get (stoppedPath name) ≠ none := by
      rw [of_decide_eq_true proof]
      exact nofun
    exact ⟨held.inv, held.inv.quiet_of_proof held.locked there, held.made⟩

theorem accepted_runs {proved : Bool} {failed : Host → Prop} (weak : ∀ host, Locked first now name host → failed host) :
    Runs first now (fun host => Locked first now name host ∧ (proved = true → On first now name host))
      (Prog.ofExcept (rejectIf (proved = false) error)) (fun _ => On first now name) failed := by
  refine .ofExcept (fun _ _ meanwhile held => ?_) (fun _ accepted _ held => ?_) fun _ held => weak _ held.1
  · exact ⟨lasts_locked.stable _ _ meanwhile held.1, fun yes => lasts_on.stable _ _ meanwhile (held.2 yes)⟩
  · rw [rejectIf_ok, Bool.not_eq_false] at accepted
    exact held.2 accepted

theorem reconcileWorkspace_runs :
    Runs first now (Inv first now) (reconcileWorkspace world now name) (fun _ => Inv first now) (Inv first now) := by
  refine .next reflexive (requireDirectory_runs lasts_inv) fun _ => ?_
  -- A marker that names another boot session leaves no guest; one of this session leaves it open.
  have made_or_quiet : Runs first now (Inv first now) (readMarker world name)
      (fun marked host => if marked = now then Inv first now host ∧ name ∈ host.made else On first now name host)
      (Inv first now) := by
    refine .next reflexive (checked_runs lasts_inv) fun _ => ?_
    refine .reads lasts_inv.stable (fun marked => ?_) (fun s marked inv read => ?_) fun _ inv => inv
    · split
      · exact lasts_made.stable
      · exact lasts_on.stable
    · have made := (inv.marked name marked read).1
      split
      · exact ⟨inv, made⟩
      · next differs =>
        refine ⟨inv, inv.quiet_of_marker fun same => differs ?_, made⟩
        rw [read, inv.here] at same
        exact Except.ok.inj same
  refine .bind reflexive made_or_quiet fun marked => ?_
  have inv_of : ∀ host, On first now name host → Inv first now host := fun _ on => on.inv
  by_cases current : marked = now
  · simp only [if_pos current]
    refine .next reflexive ((requireDirectory_runs lasts_made).mono (fun _ held => held) (fun _ _ held => held)
      fun _ held => held.1) fun _ => ?_
    refine .bind reflexive (m := fun _ => Locked first now name) ?_ fun _ => ?_
    · exact (takeUseLock_runs lasts_made fun _ _ held inv => ⟨inv, held.2⟩).mono (fun _ held => held)
        (fun _ _ held => ⟨held.1.1, held.2, held.1.2⟩) fun _ held => held.1
    refine .bind reflexive validStopMarker_runs fun proved => ?_
    refine .bind reflexive (accepted_runs fun _ on => on.inv) fun _ => ?_
    refine Prog.Among.mono (Prog.Among.next reflexive (checked_runs lasts_on) fun _ => ?_) (fun _ on => on)
      (fun _ => inv_of) inv_of
    refine .next reflexive clearStoppedWorkspace_runs fun _ => ?_
    refine .next reflexive removeWorkspace_runs fun _ => ?_
    exact releaseUseLock_runs
  · simp only [if_neg current]
    refine Prog.Among.mono (Prog.Among.next reflexive (checked_runs lasts_on) fun _ => ?_) (fun _ on => on)
      (fun _ => inv_of) inv_of
    refine .next reflexive (clearDirectory_runs List.prefix_rfl) fun _ => ?_
    exact removeWorkspace_runs

theorem reconcileEntry_runs :
    Runs first now (Inv first now) (reconcileEntry world now name) (fun _ => Inv first now) (Inv first now) := by
  unfold reconcileEntry
  split
  · exact validateRunnerLock_runs lasts_inv
  · refine .next reflexive (.ofExcept lasts_inv.stable (fun _ _ _ inv => inv) fun _ inv => inv) fun _ => ?_
    exact reconcileWorkspace_runs

/-- What is left in the work root is the lock of the runner or still to be looked at. -/
def Left (first : FileSystem) (now : Bytes) (names : List Bytes) (host : Host) : Prop :=
  Inv first now host ∧ ∀ name, host.files.get [name] ≠ none → name = runnerLock ∨ name ∈ names

theorem Helps.roots {s t : Host} (step : Helps s t) (entry : Bytes) : t.files.get [entry] = s.files.get [entry] := by
  cases step with
  | work running below => exact below _ (.inl fun inside => absurd inside.length_le (by simp [vmPath]))
  | prove stopped unproved => exact get_place_other nofun
  | record proving => exact get_place_other nofun
  | _ => rfl

theorem lasts_left {names : List Bytes} : Lasts first now (Left first now names) where
  stable := stable_of_step fun _ _ step held =>
    ⟨held.1.helps step, fun entry there => held.2 entry (step.roots entry ▸ there)⟩
  calls _ _ held := ⟨{ held.1 with }, held.2⟩
  inv _ held := held.1

theorem recheck_runs {names : List Bytes} :
    Runs first now (Left first now names)
      (Prog.forEach names fun entry =>
        if entry = runnerLock then validateRunnerLock world
        else Prog.throw "VM work root still contains unreconciled data")
      (fun _ => Left first now []) (Inv first now) := by
  induction names with
  | nil => exact .done lasts_left.stable fun _ held => held
  | cons entry rest ih =>
    refine .bind reflexive (m := fun _ => Left first now rest) ?_ fun _ => ih
    dsimp only
    split
    · next same =>
      refine (validateRunnerLock_runs lasts_left).mono (fun _ held => held) (fun _ _ held => ⟨held.1, ?_⟩)
        fun _ held => held.1
      intro other there
      rcases held.2 other there with lock | member
      · exact .inl lock
      · exact (List.mem_cons.mp member).imp_left fun first => first.trans same
    · exact .throw lasts_left.stable fun _ held => held.1

theorem reconcilePreviousBoot_runs :
    Runs first now (Inv first now) (reconcilePreviousBoot world now) (fun _ => Left first now []) (Inv first now) := by
  refine .next reflexive (checked_runs lasts_inv) fun _ => ?_
  refine .next reflexive (.gets lasts_inv.stable (fun _ => lasts_inv.stable) fun _ inv => inv) fun names => ?_
  refine .next reflexive (Prog.Among.forEach reflexive lasts_inv.stable fun _ _ => reconcileEntry_runs) fun _ => ?_
  refine .bind reflexive (m := Left first now) (.gets lasts_inv.stable (fun _ => lasts_left.stable) fun s inv => ?_)
    fun left => recheck_runs
  exact ⟨inv, fun entry there => .inr (mem_namesIn.mpr there)⟩

theorem hexEncode_lower (bytes : Bytes) : (hexEncode bytes).all isLowerHex = true :=
  hexEncode_all (by decide +kernel) bytes

theorem isJobName_uniqueName (bytes : Fin 16 → UInt8) : isJobName (uniqueName bytes) = true := by
  have start : (ascii "job-").length = 4 := by decide
  have rest : (uniqueName bytes).drop 4 = hexEncode (List.ofFn bytes) := by
    rw [uniqueName, ← start, List.drop_left]
  have length : (uniqueName bytes).length = 36 := by
    rw [uniqueName, List.length_append, start, hexEncode_length, List.length_ofFn]
  have begins : (ascii "job-").isPrefixOf (uniqueName bytes) = true :=
    List.isPrefixOf_iff_prefix.mpr (List.prefix_append ..)
  simp [isJobName, length, begins, rest, hexEncode_lower]

theorem isJobName_ne (job : isJobName name = true) : name ≠ runnerLock := by
  rintro rfl
  exact absurd job (by decide)

/-- A workspace that nothing was put into yet, or only what its constructor put there. -/
def Fresh (now name : Bytes) : Facts := fun files boot =>
  boot = now ∧ files [name] = some .directory ∧ files (stoppedPath name) = none

theorem local_fresh : Local name (Fresh now name) := by
  rintro f g boot same ⟨here, top, proof⟩
  exact ⟨here, same _ List.prefix_rfl ▸ top, same _ ⟨[vmName, stoppedName], rfl⟩ ▸ proof⟩

theorem local_and {facts : Facts} (near : Local name facts) (inside : [name] <+: path) (node : Option Node) :
    Local name fun files boot => facts files boot ∧ files path = node :=
  fun f g boot same held => ⟨near f g boot same held.1, (same path inside).symm.trans held.2⟩

theorem get_newWorkspace {s : Host} (free : s.files.get [name] = none) (path : Path) :
    (s.files.place [name] .directory).get path = if path = [name] then some .directory else s.files.get path :=
  FileSystem.get_place s.files.get_root (by simp [free]) path

theorem below_newWorkspace {s : Host} (free : s.files.get [name] = none) (other entry : Bytes) (rest : Path) :
    (s.files.place [name] .directory).get (other :: entry :: rest) = s.files.get (other :: entry :: rest) := by
  rw [get_newWorkspace free, if_neg (by simp)]

/-- An empty workspace under a free name. -/
theorem Inv.newWorkspace {s : Host} (job : isJobName name = true) (held : Left first now [] s)
    (free : s.files.get [name] = none) :
    Inv first now { s with files := s.files.place [name] .directory, made := name :: s.made } := by
  obtain ⟨inv, only⟩ := held
  have placed := get_newWorkspace free
  have deeper := fun {other entry : Bytes} {rest : Path} => below_newWorkspace free other entry rest
  have markers : ∀ other, markerOf (s.files.place [name] .directory) other = markerOf s.files other :=
    fun other => markerOf_congr deeper
  have none_made : ∀ other ∈ s.made, s.files.get [other] = none := by
    intro other made
    by_contra there
    rcases only other there with lock | none
    · exact isJobName_ne (inv.named other made) lock
    · cases none
  have alone : ∀ other ∈ name :: s.made, (s.files.place [name] .directory).get [other] ≠ none → other = name := by
    intro other made there
    by_contra apart
    rw [placed, if_neg fun same => apart (List.cons.inj same).1] at there
    exact there (none_made other ((List.mem_cons.mp made).resolve_left apart))
  refine { inv with
    proved := ?_, current := ?_, marked := ?_, named := ?_, single := ?_, known := ?_, kept := ?_, apart := ?_ }
  · exact fun other there => inv.proved other (deeper ▸ there)
  · exact fun other busy => (markers other).trans (inv.current other busy)
  · intro other boot read
    exact (inv.marked other boot (markers other ▸ read)).imp_left (List.mem_cons_of_mem name)
  · exact fun other made => (List.mem_cons.mp made).elim (fun same => same ▸ job) (inv.named other)
  · exact fun one is_made two also there too => (alone one is_made there).trans (alone two also too).symm
  · intro other node there
    rw [placed] at there
    split at there
    · next same =>
      cases there
      exact .inl ⟨(List.cons.inj same).1 ▸ List.mem_cons_self, rfl⟩
    · exact (inv.known other node there).imp_left (And.imp_left (List.mem_cons_of_mem name))
  · intro path node there
    rw [placed, if_neg, inv.kept path node there]
    rintro rfl
    rw [inv.kept _ node there] at free
    cases free
  · intro other made
    rcases List.mem_cons.mp made with rfl | before
    · by_contra there
      obtain ⟨node, found⟩ := Option.ne_none_iff_exists'.mp there
      rw [inv.kept _ node found] at free
      cases free
    · exact inv.apart other before

/-- The directory is made where nothing is: it is new, and the only one. -/
theorem makeWorkspace_runs (job : isJobName name = true) :
    Runs first now (Left first now []) (makeWorkspace world name) (fun _ => Noted first now name (Fresh now name))
      (fun _ => True) := by
  have absent : Lasts first now fun host => Left first now [] host ∧ host.files.get [name] = none :=
    { stable := stable_of_step fun s t step held => by
        refine ⟨lasts_left.stable s t (.single step) held.1, ?_⟩
        rw [step.roots, held.2]
      calls := fun host count held => ⟨lasts_left.calls host count held.1, held.2⟩
      inv := fun _ held => held.1.1 }
  refine .next reflexive ((checked_runs lasts_left).mono (fun _ held => held) (fun _ _ held => held)
    fun _ _ => trivial) fun _ => ?_
  refine .bind reflexive (m := fun _ host => Left first now [] host ∧ host.files.get [name] = none)
    (.reads lasts_left.stable (fun _ => absent.stable) (fun s _ held free => ?_) fun _ _ => trivial) fun _ => ?_
  · rw [rejectIf_ok, not_not] at free
    exact ⟨held, free⟩
  refine .modify absent.stable (lasts_noted local_fresh).stable fun s held => ?_
  obtain ⟨left, free⟩ := held
  have after := Inv.newWorkspace job left free
  have inv := left.1
  have placed := get_newWorkspace free
  have vacant : ∀ rest, s.files.get (name :: rest) = none := fun rest => FileSystem.get_vacant free rest
  have deeper := fun {other entry : Bytes} {rest : Path} => below_newWorkspace free other entry rest
  have quiet : s.Quiet name := inv.quiet_of_marker (markerOf_absent free)
  refine ⟨fun _ => ⟨after, fun path there gone => ?_⟩, ⟨after, quiet, List.mem_cons_self⟩, inv.here, ?_, ?_⟩
  · rw [placed] at gone
    split at gone
    · cases gone
    · exact absurd gone there
  · rw [placed, if_pos rfl]
  · exact deeper.trans (vacant _)

/-- More stands in a quiet workspace. -/
theorem Noted.more {host : Host} {files : FileSystem} {facts : Facts} {node : Node} (held : Noted first now name facts host)
    (inside : [name] <+: path) (deep : path ≠ [name])
    (placed : ∀ place, files.get place = if place = path then some node else host.files.get place)
    (read : path = markerPath name → ∀ value, node = .file value → ∀ boot, parseMarker value = .ok boot → boot = now)
    (free : ∀ f boot, facts f boot → facts (Function.update f path (some node)) boot) :
    Allowed first now host { host with files := files }
      ∧ Noted first now name (fun f boot => facts f boot ∧ f path = some node) { host with files := files } := by
  obtain ⟨on, facts_held⟩ := held
  have inv : Inv first now { host with files := files } := by
    refine on.inv.under on.quiet on.made (fun place outside => ?_) (.inl ?_) fun boot marker => ?_
    · exact (placed place).trans (if_neg fun same => outside (by rw [same]; exact inside))
    · exact (placed [name]).trans (if_neg deep.symm)
    · by_cases same : path = markerPath name
      · rw [markerOf, placed, if_pos same.symm] at marker
        split at marker
        · next value equal => exact .inr ((read same value (Option.some.inj equal) boot marker).trans on.inv.here.symm)
        · cases marker
      · rw [markerOf, placed, if_neg fun equal => same equal.symm] at marker
        exact .inl marker
  have whole : files.get = Function.update host.files.get path (some node) := by
    funext place
    rw [placed, Function.update_apply]
  refine ⟨fun _ => ⟨inv, fun place there gone => ?_⟩, ⟨inv, on.quiet, on.made⟩, ?_, ?_⟩
  · rw [placed] at gone
    split at gone
    · cases gone
    · exact absurd gone there
  · rw [whole]
    exact free _ _ facts_held
  · rw [placed, if_pos rfl]

section
variable {facts : Facts} {node : Node}

theorem create_runs (near : Local name facts) (inside : [name] <+: path) (deep : path ≠ [name])
    (plain : path = markerPath name → node = .file [])
    (free : ∀ f boot, facts f boot → facts (Function.update f path (some node)) boot) :
    Runs first now (Noted first now name facts) (world.create path node error)
      (fun _ => Noted first now name fun f boot => facts f boot ∧ f path = some node) (On first now name) := by
  obtain ⟨rest, rfl⟩ := inside
  have long : rest ≠ [] := by
    rintro rfl
    exact deep (List.append_nil _)
  have above : [name] <+: ([name] ++ rest).dropLast := by
    rw [List.dropLast_append_of_ne_nil long]
    exact List.prefix_append ..
  have open_facts := local_and (local_and near above (some .directory)) ⟨rest, rfl⟩ none
  refine .next reflexive ((checked_runs (lasts_noted near)).mono (fun _ held => held) (fun _ _ held => held)
    fun _ held => held.1) fun _ => ?_
  refine .bind reflexive (m := fun _ => Noted first now name _)
    (.reads (lasts_noted near).stable (fun _ => (lasts_noted open_facts).stable) (fun s _ held accepted => ?_)
      fun _ held => held.1) fun _ => ?_
  · rw [rejectIf_ok, not_or, not_not, not_not] at accepted
    exact ⟨held.1, ⟨held.2, accepted.2⟩, accepted.1⟩
  · refine .modify (lasts_noted open_facts).stable (lasts_noted (local_and near ⟨rest, rfl⟩ _)).stable fun s held => ?_
    obtain ⟨on, ⟨facts_held, parent⟩, absent⟩ := held
    refine Noted.more ⟨on, facts_held⟩ ⟨rest, rfl⟩ deep
      (FileSystem.get_place parent (by rw [absent]; exact nofun)) (fun same value equal boot read => ?_) free
    rw [plain same] at equal
    cases equal
    cases read

theorem marker_runs {value : Bytes} (near : Local name facts) (inside : [name] <+: path) (deep : path ≠ [name])
    (read : path = markerPath name → ∀ boot, parseMarker value = .ok boot → boot = now)
    (free : ∀ f boot node, facts f boot → facts (Function.update f path (some node)) boot) :
    Runs first now (Noted first now name facts) (world.marker path value error)
      (fun _ => Noted first now name fun f boot => facts f boot ∧ f path = some (.file value)) (On first now name) := by
  have created := local_and near inside (some (.file []))
  have written := local_and near inside (some (.file value))
  refine .bind reflexive (create_runs near inside deep (fun _ => rfl) fun f boot => free f boot _) fun _ => ?_
  refine .next reflexive ((checked_runs (lasts_noted created)).mono (fun _ held => held) (fun _ _ held => held)
    fun _ held => held.1) fun _ => ?_
  refine .bind reflexive (m := fun _ => Noted first now name fun f boot => facts f boot ∧ f path = some (.file value))
    (.modify (lasts_noted created).stable (lasts_noted written).stable fun s held => ?_) fun _ => ?_
  · obtain ⟨on, facts_held, there⟩ := held
    have below : path ≠ [] := by
      rintro rfl
      exact absurd (List.prefix_nil.mp inside) nofun
    refine Noted.more ⟨on, facts_held⟩ inside deep
      (FileSystem.get_place (FileSystem.parent_of_get below there) (by rw [there]; exact nofun))
      (fun same content equal => ?_) fun f boot => free f boot _
    cases equal
    exact read same
  · exact (checked_runs (lasts_noted written)).mono (fun _ held => held) (fun _ _ held => held) fun _ held => held.1

end

theorem parseMarker_workspaceMarker (valid : ValidBoot boot) : parseMarker (workspaceMarker boot) = .ok boot := by
  have length : boot.length = 36 := by
    have checks := (Bool.and_eq_true_iff.mp valid.1).1
    exact eq_of_beq checks
  have start : markerStart.length = 23 := by decide
  have middle : ((workspaceMarker boot).drop 23).take 36 = boot := by
    rw [workspaceMarker, List.append_assoc, ← start, List.drop_left, ← length, List.take_left]
  have last : (workspaceMarker boot).getLast? = some newline := List.getLast?_concat
  have whole : (workspaceMarker boot).length = 60 := by
    simp [workspaceMarker, start, length]
  have begins : markerStart <+: workspaceMarker boot := by
    rw [workspaceMarker, List.append_assoc]
    exact List.prefix_append ..
  simp [parseMarker, rejectIf, whole, begins, last, middle, valid.1, valid.2, bind, Except.bind, pure, Except.pure]

/-- The workspace is there with its marker, and its VM was not started. -/
def Ready (now name : Bytes) : Facts := fun files boot =>
  Fresh now name files boot ∧ files (markerPath name) = some (.file (workspaceMarker now))

theorem local_ready : Local name (Ready now name) := local_and local_fresh ⟨[markerName], rfl⟩ _

theorem fresh_update {f : Path → Option Node} {node : Option Node} (top : path ≠ [name]) (proof : path ≠ stoppedPath name)
    (held : Fresh now name f boot) : Fresh now name (Function.update f path node) boot := by
  obtain ⟨here, directory, unproved⟩ := held
  exact ⟨here, (Function.update_of_ne top.symm ..).trans directory, (Function.update_of_ne proof.symm ..).trans unproved⟩

theorem ready_update {f : Path → Option Node} {node : Option Node} (top : path ≠ [name]) (proof : path ≠ stoppedPath name)
    (marker : path ≠ markerPath name) (held : Ready now name f boot) :
    Ready now name (Function.update f path node) boot :=
  ⟨fresh_update top proof held.1, (Function.update_of_ne marker.symm ..).trans held.2⟩

theorem lasts_ready : Lasts first now (Noted first now name (Ready now name)) := lasts_noted local_ready

theorem ready_checked :
    Runs first now (Noted first now name (Ready now name)) (world.checked error)
      (fun _ => Noted first now name (Ready now name)) (On first now name) :=
  (checked_runs lasts_ready).mono (fun _ held => held) (fun _ _ held => held) fun _ held => held.1

/-- A node that is not the marker or the proof is put into the workspace. -/
theorem ready_create {rest : Path} {entry : Bytes} {node : Node} (marker : entry :: rest ≠ [markerName])
    (proof : entry :: rest ≠ [vmName, stoppedName]) :
    Runs first now (Noted first now name (Ready now name)) (world.create (name :: entry :: rest) node error)
      (fun _ => Noted first now name (Ready now name)) (On first now name) := by
  have apart : name :: entry :: rest ≠ markerPath name := fun same => marker (List.cons.inj same).2
  refine (create_runs local_ready ⟨entry :: rest, rfl⟩ (by simp) (fun same => absurd same apart)
    fun f boot => ready_update (by simp) (fun same => proof (List.cons.inj same).2) apart).mono
    (fun _ held => held) (fun _ _ held => ⟨held.1, held.2.1⟩) fun _ held => held

theorem ready_marker {rest : Path} {entry : Bytes} {value : Bytes} (marker : entry :: rest ≠ [markerName])
    (proof : entry :: rest ≠ [vmName, stoppedName]) :
    Runs first now (Noted first now name (Ready now name)) (world.marker (name :: entry :: rest) value error)
      (fun _ => Noted first now name (Ready now name)) (On first now name) := by
  have apart : name :: entry :: rest ≠ markerPath name := fun same => marker (List.cons.inj same).2
  refine (marker_runs local_ready ⟨entry :: rest, rfl⟩ (by simp) (fun same => absurd same apart)
    fun f boot node => ready_update (by simp) (fun same => proof (List.cons.inj same).2) apart).mono
    (fun _ held => held) (fun _ _ held => ⟨held.1, held.2.1⟩) fun _ held => held

theorem fillWorkspace_runs (valid : ValidBoot now) :
    Runs first now (Noted first now name (Fresh now name)) (fillWorkspace world name now)
      (fun _ => Noted first now name (Ready now name)) (On first now name) := by
  refine .next reflexive ((requireDirectory_runs (lasts_noted local_fresh)).mono (fun _ held => held)
    (fun _ _ held => held) fun _ held => held.1) fun _ => ?_
  refine .bind reflexive (marker_runs local_fresh ⟨[markerName], rfl⟩ nofun (fun _ boot read => ?_)
    fun f boot node => fresh_update nofun nofun) fun _ => ?_
  · rw [parseMarker_workspaceMarker valid] at read
    exact (Except.ok.inj read).symm
  refine .next reflexive (ready_create nofun nofun) fun _ => ?_
  refine .next reflexive (ready_create (by decide) nofun) fun _ => ?_
  refine .next reflexive ((requireDirectory_runs lasts_ready).mono (fun _ held => held)
    (fun _ _ held => held) fun _ held => held.1) fun _ => ?_
  refine .next reflexive (Prog.Among.forEach reflexive lasts_ready.stable fun component member => ?_) fun _ => ?_
  · refine .next reflexive ready_checked fun _ => ?_
    split
    · exact .throw lasts_ready.stable fun _ held => held.1
    · refine .next reflexive (ready_create nofun fun same => ?_) fun _ => ready_checked
      have named : component = stoppedName := (List.cons.inj (List.cons.inj same).2).1
      exact absurd member (by rw [named]; decide)
  refine .next reflexive (ready_marker nofun (by decide)) fun _ => ?_
  exact .next reflexive (ready_marker nofun (by decide)) fun _ => ready_checked

theorem clearPartial_runs :
    Runs first now (On first now name) (clearPartial world name) (fun _ => On first now name) (On first now name) := by
  refine .next reflexive (clearDirectory_runs List.prefix_rfl) fun _ => ?_
  refine .next reflexive (checked_runs lasts_on) fun _ => ?_
  refine .next reflexive (.gets lasts_on.stable (fun _ => lasts_on.stable) fun _ held => held) fun there => ?_
  split
  · exact checked_runs lasts_on
  · exact .next reflexive (unlink_runs ⟨[markerName], rfl⟩) fun _ => checked_runs lasts_on

theorem discard_runs {opened : Bool} {after : Option (Bytes × Bytes) → Host → Prop} :
    Runs first now (On first now name) (discard world name opened error) after fun _ => True := by
  refine .bind reflexive (m := fun _ => On first now name) ?_ fun cleared => ?_
  · apply Prog.Among.attempt
    unfold Prog.whenever
    split
    · exact clearPartial_runs.mono (fun _ on => on) (fun _ _ on => on) fun _ on _ => on
    · exact .done lasts_on.stable fun _ on => on
  · refine .bind reflexive (m := fun _ => On first now name) ?_ fun removed => ?_
    · exact .attempt ((rmdir_runs List.prefix_rfl).mono (fun _ on => on) (fun _ _ on => on) fun _ on _ => on)
    · exact .throw lasts_on.stable fun _ _ => trivial

/-- What a program of the runner may return: a workspace that is ready, or nothing. -/
def Returned (first : FileSystem) (now : Bytes) (result : Option (Bytes × Bytes)) (host : Host) : Prop :=
  Inv first now host ∧ ∀ name boot, result = some (name, boot) → boot = now ∧ Noted first now name (Ready now name) host

theorem createWorkspace_runs (valid : ValidBoot now) :
    Runs first now (Inv first now) (createWorkspace world) (Returned first now) fun _ => True := by
  have weak : ∀ host, Inv first now host → True := fun _ _ => trivial
  refine .next reflexive ((checked_runs lasts_inv).mono (fun _ inv => inv) (fun _ _ inv => inv) weak) fun _ => ?_
  refine .bind reflexive (m := fun boot host => boot = now ∧ Inv first now host)
    (.gets lasts_inv.stable (fun boot s t meanwhile held => ⟨held.1, lasts_inv.stable s t meanwhile held.2⟩)
      fun s inv => ⟨inv.here, inv⟩) fun boot => .given ?_
  rintro rfl
  refine .next reflexive ((checked_runs lasts_inv).mono (fun _ inv => inv) (fun _ _ inv => inv) weak) fun _ => ?_
  refine .bind reflexive (reconcilePreviousBoot_runs.mono (fun _ inv => inv) (fun _ _ held => held) weak) fun _ => ?_
  have left_weak : ∀ host, Left first boot [] host → True := fun _ _ => trivial
  refine .next reflexive ((checked_runs lasts_left).mono (fun _ held => held) (fun _ _ held => held) left_weak) fun _ => ?_
  refine .next reflexive ((checked_runs lasts_left).mono (fun _ held => held) (fun _ _ held => held) left_weak) fun _ => ?_
  refine .bind reflexive (m := fun name host => isJobName name = true ∧ Left first boot [] host)
    (.gets lasts_left.stable (fun name s t meanwhile held => ⟨held.1, lasts_left.stable s t meanwhile held.2⟩)
      fun s held => ⟨isJobName_uniqueName _, held⟩) fun name => .given fun job => ?_
  refine .bind reflexive (makeWorkspace_runs job) fun _ => ?_
  have fresh : Lasts first boot (Noted first boot name (Fresh boot name)) := lasts_noted local_fresh
  refine .bind reflexive (m := fun _ => Noted first boot name (Fresh boot name))
    (.attempt ((checked_runs fresh).mono (fun _ held => held) (fun _ _ held => held) fun _ held _ => held)) fun opened => ?_
  cases opened with
  | error failure => exact discard_runs.mono (fun _ held => held.1) (fun _ _ held => held) fun _ _ => trivial
  | ok _ =>
    refine .bind reflexive (m := fun filled host => (filled.isOk = false → On first boot name host)
        ∧ (filled.isOk = true → Noted first boot name (Ready boot name) host))
      (.attempt ((fillWorkspace_runs valid).mono (fun _ held => held)
        (fun _ _ held => ⟨fun failed => (by cases failed), fun _ => held⟩)
        fun _ on _ => ⟨fun _ => on, fun done => (by cases done)⟩)) fun filled => ?_
    cases filled with
    | error failure => exact discard_runs.mono (fun _ held => held.1 rfl) (fun _ _ held => held) fun _ _ => trivial
    | ok _ =>
      refine .mono (.done lasts_ready.stable fun s held => ⟨held.1.inv, fun name' boot' same => ?_⟩)
        (fun _ held => held.2 rfl) (fun _ _ held => held) fun _ held => held
      cases same
      exact ⟨rfl, held⟩

theorem proveStopped_runs :
    Runs first now (On first now name) (proveStopped world name) (fun _ => On first now name) (On first now name) := by
  have plain : Local name fun _ _ => True := fun _ _ _ _ _ => trivial
  refine .next reflexive (checked_runs lasts_on) fun _ => ?_
  refine .next reflexive (.gets lasts_on.stable (fun _ => lasts_on.stable) fun _ held => held) fun there => ?_
  unfold Prog.whenever
  split
  · exact (marker_runs plain ⟨[vmName, stoppedName], rfl⟩ nofun nofun fun _ _ _ _ => trivial).mono
      (fun _ on => ⟨on, trivial⟩) (fun _ _ held => held.1) fun _ on => on
  · exact .done lasts_on.stable fun _ on => on

theorem removeAfterConfirmedStop_runs :
    Runs first now (On first now name) (removeAfterConfirmedStop world name boot) (Returned first now)
      fun _ => True := by
  suffices whole : Runs first now (On first now name) (removeAfterConfirmedStop world name boot) (Returned first now)
      (On first now name) from whole.mono (fun _ on => on) (fun _ _ held => held) fun _ _ => trivial
  have accepted : ∀ {bad : Prop} [Decidable bad] {text : String},
      Runs first now (On first now name) (Prog.ofExcept (rejectIf bad text)) (fun _ => On first now name)
        (On first now name) := .ofExcept lasts_on.stable (fun _ _ _ on => on) fun _ on => on
  refine .next reflexive (checked_runs lasts_on) fun _ => ?_
  refine .next reflexive (requireDirectory_runs lasts_on) fun _ => ?_
  refine .next reflexive (readMarker_runs lasts_on) fun marked => ?_
  refine .next reflexive accepted fun _ => ?_
  refine .next reflexive (requireDirectory_runs lasts_on) fun _ => ?_
  refine .next reflexive ((takeUseLock_runs lasts_on fun _ _ on inv => ⟨inv, on.quiet, on.made⟩).mono
    (fun _ on => on) (fun _ _ held => held.1) fun _ on => on) fun _ => ?_
  refine .next reflexive proveStopped_runs fun _ => ?_
  refine .next reflexive ?_ fun proved => ?_
  · refine .next reflexive (refused_runs lasts_on) fun refused => ?_
    cases refused with
    | true => exact .done lasts_on.stable fun _ on => on
    | false => exact .gets lasts_on.stable (fun _ => lasts_on.stable) fun _ on => on
  refine .next reflexive accepted fun _ => ?_
  refine .next reflexive (checked_runs lasts_on) fun _ => ?_
  refine .next reflexive clearStoppedWorkspace_runs fun _ => ?_
  refine .next reflexive removeWorkspace_runs fun _ => ?_
  refine .next reflexive releaseUseLock_runs fun _ => ?_
  exact .done lasts_on.stable fun _ on => ⟨on.inv, nofun⟩

end CkGit.Workspace
