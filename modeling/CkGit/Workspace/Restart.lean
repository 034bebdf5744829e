import CkGit.Workspace.Recovery

/-!
After a crash and a restart the next constructor succeeds, unless the crash left
a directory without its marker.
-/
namespace CkGit.Workspace
open Base

variable {world : World} {first files other : FileSystem} {now name boot : Bytes} {rest : Path} {node : Node}

/-- A workspace that holds only these paths, in a work root that is otherwise as it was. -/
structure Filled (files : FileSystem) (name : Bytes) (paths : List Path) (g : FileSystem) : Prop where
  roots : ∀ entry, g.get [entry] = if entry = name then some .directory else files.get [entry]
  only : ∀ rest, rest ≠ [] → g.get (name :: rest) ≠ none → rest ∈ paths
  vm : [vmName] ∈ paths → g.get (vmPath name) = some .directory

theorem Filled.put {paths : List Path} {g h : FileSystem} (filled : Filled files name paths g) (deep : rest ≠ [])
    (directory : rest = [vmName] → node = .directory)
    (placed : ∀ path, h.get path = if path = name :: rest then some node else g.get path) :
    Filled files name (rest :: paths) h where
  roots entry := by
    rw [placed, if_neg fun same => deep (List.cons.inj same).2.symm, filled.roots]
  only other long there := by
    rw [placed] at there
    split at there
    · next same => exact (List.cons.inj same).2 ▸ List.mem_cons_self
    · exact List.mem_cons_of_mem _ (filled.only other long there)
  vm member := by
    rw [placed]
    split
    · next same => rw [directory (List.cons.inj same).2.symm]
    · next differs =>
      refine filled.vm ((List.mem_cons.mp member).resolve_left fun same => differs ?_)
      rw [vmPath, same]

/-- The parent directory of what is put into a workspace. -/
theorem Filled.parent {paths : List Path} {g : FileSystem} (filled : Filled files name paths g) {entry : Bytes}
    (above : rest = [] ∨ rest = [vmName] ∧ [vmName] ∈ paths) :
    g.get (name :: (rest ++ [entry])).dropLast = some .directory := by
  rw [← List.cons_append, List.dropLast_concat]
  rcases above with rfl | ⟨rfl, made⟩
  · rw [filled.roots, if_pos rfl]
  · exact filled.vm made

section
variable {error : String} (willing : world.Willing)
include willing

theorem create_completes {path : Path} (absent : files.get path = none) (parent : files.get path.dropLast = some .directory) :
    Completes now (world.create path node error) files fun _ g =>
      ∀ place, g.get place = if place = path then some node else files.get place := by
  refine .next (checked_completes willing) fun _ => ?_
  refine .next (.check fun host same => rejectIf_ok.mpr ?_) fun _ => ?_
  · rw [same, absent, parent]
    simp
  · refine .modify fun host same => ⟨fun place => ?_, rfl⟩
    dsimp only
    rw [same]
    exact FileSystem.get_place parent (by rw [absent]; exact nofun) place

theorem marker_completes {path : Path} {value : Bytes} (absent : files.get path = none)
    (parent : files.get path.dropLast = some .directory) (below : path ≠ []) :
    Completes now (world.marker path value error) files fun _ g =>
      ∀ place, g.get place = if place = path then some (.file value) else files.get place := by
  refine (create_completes willing absent parent).bind fun _ g made => ?_
  refine .next (checked_completes willing) fun _ => ?_
  have there : g.get path = some (.file []) := (made path).trans (if_pos rfl)
  have written : Completes now (Prog.modify fun host : Host => { host with files := host.files.place path (.file value) }) g
      fun _ h => ∀ place, h.get place = if place = path then some (.file value) else files.get place := by
    refine .modify fun host same => ⟨fun place => ?_, rfl⟩
    dsimp only
    rw [same, FileSystem.get_place (FileSystem.parent_of_get below there) (by rw [there]; exact nofun), made]
    split <;> rfl
  exact written.bind fun _ h done => (checked_completes willing).mono fun _ f same => same ▸ done

theorem filled_create (rest : Path) (entry : Bytes) {paths : List Path} {g : FileSystem} (filled : Filled files name paths g)
    (above : rest = [] ∨ rest = [vmName] ∧ [vmName] ∈ paths) (new : rest ++ [entry] ∉ paths)
    (directory : rest ++ [entry] = [vmName] → node = .directory) :
    Completes now (world.create (name :: (rest ++ [entry])) node error) g fun _ h =>
      Filled files name ((rest ++ [entry]) :: paths) h := by
  have absent : g.get (name :: (rest ++ [entry])) = none := by
    by_contra there
    exact new (filled.only _ (by simp) there)
  exact (create_completes willing absent (filled.parent above)).mono fun _ h placed =>
    filled.put (by simp) directory placed

theorem filled_marker (rest : Path) (entry : Bytes) {paths : List Path} {g : FileSystem} {value : Bytes} (filled : Filled files name paths g)
    (above : rest = [] ∨ rest = [vmName] ∧ [vmName] ∈ paths) (new : rest ++ [entry] ∉ paths)
    (file : rest ++ [entry] ≠ [vmName]) :
    Completes now (world.marker (name :: (rest ++ [entry])) value error) g fun _ h =>
      Filled files name ((rest ++ [entry]) :: paths) h := by
  have absent : g.get (name :: (rest ++ [entry])) = none := by
    by_contra there
    exact new (filled.only _ (by simp) there)
  exact (marker_completes willing absent (filled.parent above) (by simp)).mono fun _ h placed =>
    filled.put (by simp) (fun same => absurd same file) placed

theorem cloneComponents_completes {names : List Bytes} {paths : List Path} {g : FileSystem}
    (base : ∀ component ∈ names, world.base component ≠ none) (once : names.Nodup)
    (new : ∀ component ∈ names, [vmName, component] ∉ paths) (made : [vmName] ∈ paths) (filled : Filled files name paths g) :
    Completes now (Prog.forEach names (cloneComponent world name)) g fun _ h =>
      Filled files name ((names.map fun component => [vmName, component]).reverse ++ paths) h := by
  induction names generalizing paths g with
  | nil => exact .done filled
  | cons component later ih =>
    obtain ⟨fresh, once⟩ := List.nodup_cons.mp once
    obtain ⟨content, found⟩ := Option.ne_none_iff_exists'.mp (base component List.mem_cons_self)
    have cloned : Completes now (cloneComponent world name component) g fun _ h =>
        Filled files name ([vmName, component] :: paths) h := by
      refine .next (checked_completes willing) fun _ => ?_
      simp only [found]
      refine (filled_create willing [vmName] component filled (.inr ⟨rfl, made⟩) (new component List.mem_cons_self) nofun).bind
        fun _ h done => ?_
      exact (checked_completes willing).mono fun _ f same => same ▸ done
    refine cloned.bind fun _ h done => (ih (fun other member => base other (List.mem_cons_of_mem _ member)) once
      (fun other member again => ?_) (List.mem_cons_of_mem _ made) done).mono fun _ last all => by simpa using all
    rcases List.mem_cons.mp again with same | before
    · exact fresh ((List.cons.inj (List.cons.inj same).2).1 ▸ member)
    · exact new other (List.mem_cons_of_mem _ member) before

theorem fillWorkspace_completes {g : FileSystem} (base : ∀ component ∈ components, world.base component ≠ none)
    (filled : Filled files name [] g) :
    Completes now (fillWorkspace world name now) g fun _ h =>
      ∀ entry, h.get [entry] = if entry = name then some .directory else files.get [entry] := by
  refine .next (requireDirectory_completes willing ((filled.roots name).trans (if_pos rfl))) fun _ => ?_
  refine (filled_marker willing [] markerName filled (.inl rfl) List.not_mem_nil (by decide)).bind fun _ g filled => ?_
  refine (filled_create willing [] vmName filled (.inl rfl) (by decide) fun _ => rfl).bind
    fun _ g filled => ?_
  refine (filled_create willing [] exchangeName filled (.inl rfl) (by decide) fun same => ?_).bind
    fun _ g filled => ?_
  · exact absurd same (by decide)
  refine .next (requireDirectory_completes willing (filled.vm (by decide))) fun _ => ?_
  refine (cloneComponents_completes willing base (by decide) (by decide) (by decide) filled).bind fun _ g filled => ?_
  refine (filled_marker willing [vmName] disposableName filled (.inr ⟨rfl, by decide⟩) (by decide) (by decide)).bind
    fun _ g filled => ?_
  refine (filled_marker willing [vmName] useLockName filled (.inr ⟨rfl, by decide⟩) (by decide) (by decide)).bind
    fun _ g filled => ?_
  exact (checked_completes willing).mono fun _ f same => same ▸ filled.roots

/-- Everything is recovered, and a new workspace is made. -/
theorem createWorkspace_completes (base : ∀ component ∈ components, world.base component ≠ none)
    (known : ∀ name, files.get [name] ≠ none → Known files now name) :
    Completes now (createWorkspace world) files fun result g => ∃ name, isJobName name = true
      ∧ result = some (name, now) ∧ ∀ entry, g.get [entry] =
        if entry = name then some .directory else if entry = runnerLock then files.get [entry] else none := by
  refine .next (checked_completes willing) fun _ => ?_
  have here : Completes now (Prog.gets Host.boot) files fun boot g => boot = now ∧ g = files :=
    ⟨fun _ same here => ⟨⟨here, same⟩, here⟩⟩
  refine here.bind fun boot g read => ?_
  obtain ⟨rfl, rfl⟩ := read
  refine .next (checked_completes willing) fun _ => ?_
  refine (reconcilePreviousBoot_completes willing known).bind fun _ h left => ?_
  refine .next (checked_completes willing) fun _ => .next (checked_completes willing) fun _ => ?_
  have named : Completes boot (Prog.gets fun host : Host => uniqueName (world.random host.calls)) h
      fun name f => isJobName name = true ∧ f = h := ⟨fun _ same here => ⟨⟨isJobName_uniqueName _, same⟩, here⟩⟩
  refine named.bind fun name f held => ?_
  obtain ⟨job, rfl⟩ := held
  have plain := isJobName_ne job
  have free : f.get [name] = none := (left name).trans (if_neg plain)
  have made : Completes boot (makeWorkspace world name) f fun _ m => Filled f name [] m := by
    refine .next (checked_completes willing) fun _ => ?_
    refine .next (.check fun host same => rejectIf_ok.mpr (by rw [same, free]; simp)) fun _ => ?_
    refine .modify fun host same => ⟨?_, rfl⟩
    have placed : ∀ path, (f.place [name] .directory).get path = if path = [name] then some .directory else f.get path :=
      fun path => FileSystem.get_place f.get_root (by rw [free]; exact nofun) path
    dsimp only
    rw [same]
    refine ⟨fun entry => ?_, fun rest long there => ?_, nofun⟩
    · rw [placed]
      by_cases same : entry = name <;> simp [same]
    · rw [placed, if_neg fun same => long (List.cons.inj same).2] at there
      exact absurd (FileSystem.get_vacant free rest) there
  refine made.bind fun _ m filled => ?_
  have opened : Completes boot (world.checked "VM workspace directory changed, is not private, or crosses a mount").attempt m
      fun result g => result = .ok () ∧ g = m := by
    refine ⟨fun host same here => ?_⟩
    rw [Prog.wp_attempt]
    exact Prog.wp_mono ((checked_completes willing).runs host same here) (fun _ _ => trivial)
      (fun _ _ held => ⟨⟨rfl, held.1⟩, held.2⟩) fun _ _ none => none.elim
  refine opened.bind fun result g held => ?_
  obtain ⟨rfl, rfl⟩ := held
  have done : Completes boot (fillWorkspace world name boot).attempt g fun result last => result = .ok ()
      ∧ ∀ entry, last.get [entry] = if entry = name then some .directory else f.get [entry] := by
    refine ⟨fun host same here => ?_⟩
    rw [Prog.wp_attempt]
    exact Prog.wp_mono ((fillWorkspace_completes willing base filled).runs host same here) (fun _ _ => trivial)
      (fun _ _ held => ⟨⟨rfl, held.1⟩, held.2⟩) fun _ _ none => none.elim
  refine done.bind fun result last held => ?_
  obtain ⟨rfl, roots⟩ := held
  refine .done ⟨name, job, rfl, fun entry => ?_⟩
  rw [roots, left]

end

/-- Every workspace that is there has its complete marker. -/
def Marked (host : Host) : Prop :=
  ∀ name ∈ host.made, host.files.get [name] ≠ none → ∃ boot, markerOf host.files name = .ok boot

/-- What is in a workspace is within the limits of the clearing. -/
def Clearable (host : Host) : Prop :=
  ∀ name ∈ host.made, host.files.get [name] ≠ none →
    Shallow host.files [name] kLevels ∧ census (doomed [name] [markerName]) host.files ≤ 1000000

/-- A step that does not cut the runner off between a directory and its marker. -/
def Careful (world : World) (s t : System) : Prop :=
  Step world s t ∧ (s.session ≠ none → t.session = none → Marked s.host)

theorem Helps.markers {s t : Host} (step : Helps s t) (entry : Bytes) : markerOf t.files entry = markerOf s.files entry := by
  cases step with
  | work running below =>
    refine markerOf_congr (below _ (.inl fun inside => ?_))
    exact absurd (List.cons_prefix_cons.mp (List.cons_prefix_cons.mp inside).2).1 (by decide)
  | prove stopped unproved => exact markerOf_congr (get_place_other nofun)
  | record proving => exact markerOf_congr (get_place_other nofun)
  | _ => rfl

/-- While no runner is at work the markers stay. -/
theorem Careful.marked {s t : System} (step : Careful world s t) (marked : s.session = none → Marked s.host)
    (idle : t.session = none) : Marked t.host := by
  obtain ⟨step, cut⟩ := step
  cases step with
  | removed => exact cut nofun rfl
  | failed => exact cut nofun rfl
  | killed => exact cut nofun rfl
  | help step =>
    intro name made there
    obtain ⟨boot, read⟩ := marked idle name (step.same.1 ▸ made) (step.roots name ▸ there)
    exact ⟨boot, (step.markers name).trans read⟩
  | @restart host session boot valid fresh =>
    cases session with
    | none => exact marked rfl
    | some session => exact cut nofun rfl
  | _ => cases idle

theorem Starts.marked {s t : System} (starts : Starts s) (run : Relation.ReflTransGen (Careful world) s t)
    (idle : t.session = none) : Marked t.host := by
  induction run with
  | refl =>
    intro name made
    rw [starts.unused] at made
    cases made
  | tail _ step ih => exact step.marked ih idle

/-- In every run the runner removes something only in a workspace that it made itself and that no guest or
helper uses, what was there at first stays, and there is at most one workspace. In a run in which the runner
is never cut off between a directory and its marker, the first constructor after a restart removes all that is
left and succeeds, when the work root held nothing else, nothing is refused, and what was put into the
workspaces is within the limits of the clearing. -/
theorem workspaces_recover (world : World) (s : System) (starts : Starts s) :
    (∀ t, Reaches world s t →
      (∀ p q next, t.session = some (.running p) → Prog.Advances p t.host q next →
        ∀ path, t.host.files.get path ≠ none → next.files.get path = none →
          ∃ name ∈ t.host.made, [name] <+: path ∧ t.host.guest name ≠ .running ∧ t.host.helper name = none)
      ∧ (∀ path node, s.host.files.get path = some node → t.host.files.get path = some node)
      ∧ (∀ name ∈ t.host.made, s.host.files.get [name] = none)
      ∧ ∀ name ∈ t.host.made, ∀ other ∈ t.host.made,
        t.host.files.get [name] ≠ none → t.host.files.get [other] ≠ none → name = other)
    ∧ ∀ t boot, Relation.ReflTransGen (Careful world) s t → ValidBoot boot → boot ∉ t.host.boots →
      (t.session ≠ none → Marked t.host) → Clearable t.host →
      (∀ name node, s.host.files.get [name] = some node → name = runnerLock ∧ ∃ value, node = .file value) →
      world.Willing → (∀ component ∈ components, world.base component ≠ none) →
      ∃ name after, (createWorkspace world).exec (t.host.restarted boot) = (.ok (some (name, boot)), after)
        ∧ ∀ entry, after.files.get [entry] =
          if entry = name then some .directory else if entry = runnerLock then t.host.files.get [entry] else none := by
  constructor
  · intro t run
    obtain ⟨now, inv, session⟩ := starts.reaches run
    refine ⟨fun p q next running step path there gone => ?_, inv.kept, inv.apart, inv.single⟩
    rw [running] at session
    obtain ⟨same | allowed, _⟩ := Prog.amid_advances session (reflexive _) step
    · exact absurd (same ▸ gone) there
    · obtain ⟨name, made, inside, quiet⟩ := (allowed inv).2 path there gone
      exact ⟨name, made, inside, quiet.1, quiet.2⟩
  · intro t boot run valid fresh cut clearable untouched willing base
    have reached : Reaches world s t := run.lift id fun _ _ step => step.1
    obtain ⟨now, inv, _⟩ := starts.reaches reached
    have marked : Marked t.host := by
      by_cases idle : t.session = none
      · exact starts.marked run idle
      · exact cut idle
    have known : ∀ name, t.host.files.get [name] ≠ none → Known t.host.files boot name := by
      intro name there
      obtain ⟨node, found⟩ := Option.ne_none_iff_exists'.mp there
      rcases inv.known name node found with ⟨made, rfl⟩ | before
      · obtain ⟨old, read⟩ := marked name made there
        obtain ⟨shallow, few⟩ := clearable name made there
        refine .inr ⟨inv.named name made, found, ⟨old, read, ?_⟩, shallow, few⟩
        rintro rfl
        exact fresh (inv.marked name _ read).2
      · obtain ⟨rfl, value, rfl⟩ := untouched name node before
        exact .inl ⟨rfl, value, found⟩
    have runs := (createWorkspace_completes willing base known).runs (t.host.restarted boot) rfl rfl
    have result := Prog.wp_exec runs
    cases outcome : (createWorkspace world).exec (t.host.restarted boot) with
    | mk reply after =>
      rw [outcome] at result
      cases reply with
      | error => exact result.elim
      | ok returned =>
        obtain ⟨⟨name, _, rfl, roots⟩, _⟩ := result
        exact ⟨name, after, rfl, roots⟩

section
variable {σ ε α : Type}

/-- So many steps without a disturbance. -/
def stepping : Nat → Prog σ ε α × σ → Prog σ ε α × σ
  | 0, now => now
  | steps + 1, (.read next, state) => stepping steps (next state, state)
  | steps + 1, (.write change next, state) => stepping steps (next, change state)
  | _ + 1, now => now

end

private theorem reaches_stepping (steps : Nat) (p : Call (Option (Bytes × Bytes))) (host : Host) :
    Reaches world ⟨host, some (.running p)⟩
      ⟨(stepping steps (p, host)).2, some (.running (stepping steps (p, host)).1)⟩ := by
  induction steps generalizing p host with
  | zero => exact .refl
  | succ steps ih =>
    cases p with
    | done a => exact .refl
    | throw error => exact .refl
    | read next => exact .head (.advance .read) (ih (next host) host)
    | write change next => exact .head (.advance .write) (ih next (change host))

def quietWorld : World where
  refuses _ := false
  random calls i := (calls + i.val).toUInt8
  base _ := some []

def firstBoot : Bytes := ascii "00000000-0000-4000-8000-000000000001"
def secondBoot : Bytes := ascii "00000000-0000-4000-8000-000000000002"

def emptyHost : Host where
  files := { nodes := [], once := List.nodup_nil, rooted := fun _ _ there => nomatch there }
  boot := firstBoot
  calls := 0
  useLock _ := none
  guest _ := .off
  helper _ := none
  boots := [firstBoot]
  made := []

private theorem starts_empty : Starts ⟨emptyHost, none⟩ where
  idle := rfl
  off _ := rfl
  alone _ := rfl
  unmarked _ _ := nofun
  unused := rfl
  booted := rfl
  valid := ⟨by decide, by decide⟩

private theorem careful_exec {p : Call (Option (Bytes × Bytes))} {a : Option (Bytes × Bytes)} {host after : Host}
    (returned : p.exec host = (.ok a, after)) :
    Relation.ReflTransGen (Careful world) ⟨host, some (.running p)⟩ ⟨after, some (.running (.done a))⟩ := by
  have busy : ∀ {p q : Call (Option (Bytes × Bytes))} {host next : Host}, Prog.Advances p host q next →
      Careful world ⟨host, some (.running p)⟩ ⟨next, some (.running q)⟩ := fun one => ⟨.advance one, fun _ => nofun⟩
  induction p generalizing host with
  | done b =>
    cases returned
    exact .refl
  | throw error => cases returned
  | read next ih => exact .head (busy .read) (ih host returned)
  | write change next ih => exact .head (busy .write) (ih returned)

private theorem changedBelow_place {files : FileSystem} {dir place : Path} {kept : List Path} {node : Node}
    (inside : dir <+: place) (apart : place ≠ dir) (other : place ∉ kept) :
    ChangedBelow dir kept files (files.place place node) := by
  intro path outside
  apply get_place_other
  rintro rfl
  rcases outside with out | same | spared
  · exact out inside
  · exact apart same
  · exact other spared

/-- The first workspace, and the machine on which it was made. -/
def firstName : Bytes := (((createWorkspace quietWorld).exec emptyHost).1.toOption.join.map Prod.fst).getD []

def madeHost : Host := ((createWorkspace quietWorld).exec emptyHost).2

/-- The sources are there and the helper is spawned. -/
def spawnedHost : Host :=
  { madeHost with
    files := madeHost.files.place [firstName, exchangeName, ascii "src"] (.file (ascii "int main;"))
    helper := Function.update madeHost.helper firstName (some .spawned) }

def startedHost : Host :=
  { spawnedHost with
    helper := Function.update (Function.update spawnedHost.helper firstName (some .locked)) firstName (some .started)
    useLock := Function.update spawnedHost.useLock firstName (some .helper)
    guest := Function.update spawnedHost.guest firstName .running }

/-- The guest wrote below its disk, and the runner is gone. -/
def leftHost : Host :=
  { startedHost with
    files := startedHost.files.place (vmPath firstName ++ [ascii "swap"]) (.file [1, 2]) }.released

private theorem left_table :
    ((createWorkspace quietWorld).exec emptyHost).1.toOption = some (some (firstName, firstBoot))
      ∧ spawnedHost.files.get (useLockPath firstName) = some (.file (ascii "ckgit-vm-use-v1\n"))
      ∧ spawnedHost.files.get (stoppedPath firstName) = none
      ∧ leftHost.made = [firstName]
      ∧ (leftHost.guest firstName = .running ∧ leftHost.files.get [firstName] = some .directory)
      ∧ (markerOf leftHost.files firstName).toOption = some firstBoot
      ∧ (∀ entry ∈ leftHost.files.nodes, entry.1.length ≤ 3)
      ∧ leftHost.files.nodes.length ≤ 20
      ∧ (((createWorkspace quietWorld).exec (leftHost.restarted secondBoot)).1.toOption.join.map Prod.fst).all
        (· ≠ firstName) = true := by
  decide +kernel

/-- The first runner makes and stages a workspace and spawns its helper, which starts the guest; then
the runner is killed. -/
private theorem left_reached : Relation.ReflTransGen (Careful quietWorld) ⟨emptyHost, none⟩ ⟨leftHost, none⟩ := by
  obtain ⟨made, lock, unproved, names, _, marker, _⟩ := left_table
  have busy : ∀ {s : System} {host : Host} {session : Session}, Step quietWorld s ⟨host, some session⟩ →
      Careful quietWorld s ⟨host, some session⟩ := fun step => ⟨step, fun _ => nofun⟩
  have returned : (createWorkspace quietWorld).exec emptyHost = (.ok (some (firstName, firstBoot)), madeHost) :=
    Prod.ext (ok_of_toOption made) rfl
  refine .head (busy .create) ((careful_exec returned).trans (.head (busy .created) ?_))
  have staged : ChangedBelow [firstName, exchangeName] [] madeHost.files spawnedHost.files :=
    changedBelow_place ⟨[ascii "src"], rfl⟩ (by simp) nofun
  refine .head (busy (.stage staged)) (.head (busy .spawn) ?_)
  refine .head (busy (.help (.lock (Function.update_self ..) lock rfl))) ?_
  refine .head (busy (.help (.start (Function.update_self ..) unproved))) ?_
  have worked : ChangedBelow (vmPath firstName) [stoppedPath firstName, useLockPath firstName] startedHost.files
      leftHost.files :=
    changedBelow_place (List.prefix_append _ _) (by simp) (by decide +kernel)
  refine .head (busy (.help (.work (Function.update_self ..) worked))) (.single ⟨.killed, fun _ _ name member _ => ?_⟩)
  obtain rfl := List.mem_singleton.mp (names ▸ member)
  exact ⟨firstBoot, ok_of_toOption marker⟩

/-- What the killed runner left is removed by the first constructor after a restart. -/
theorem workspaces_recover_left :
    leftHost.guest firstName = .running ∧ leftHost.files.get [firstName] = some .directory
      ∧ ∃ name after,
        (createWorkspace quietWorld).exec (leftHost.restarted secondBoot) = (.ok (some (name, secondBoot)), after)
        ∧ (∀ entry, after.files.get [entry] =
          if entry = name then some .directory else if entry = runnerLock then leftHost.files.get [entry] else none)
        ∧ after.files.get [firstName] = none := by
  obtain ⟨_, _, _, names, there, _, shallow, few, new⟩ := left_table
  have clearable : Clearable leftHost := by
    intro name member _
    obtain rfl := List.mem_singleton.mp (names ▸ member)
    refine ⟨fun path inside found => ?_, Nat.le_trans List.countP_le_length (Nat.le_trans few (by decide))⟩
    by_cases top : path = []
    · exact absurd inside.length_le (by simp [top])
    · rw [FileSystem.get_below top] at found
      exact Nat.lt_of_le_of_lt (shallow _ (Assoc.mem_of_get found)) (by decide)
  obtain ⟨name, after, ran, roots⟩ := (workspaces_recover quietWorld ⟨emptyHost, none⟩ starts_empty).2
    ⟨leftHost, none⟩ secondBoot left_reached ⟨by decide, by decide⟩ (by decide +kernel) (fun busy => absurd rfl busy)
    clearable (fun _ _ found => by cases found) (fun _ => rfl) fun _ _ => nofun
  refine ⟨there.1, there.2, name, after, ran, roots, ?_⟩
  have apart : name ≠ firstName := by
    rw [ran] at new
    exact of_decide_eq_true new
  rw [roots, if_neg apart.symm, if_neg (by decide +kernel)]

/-- The constructor is cut off after it made the directory of its workspace. -/
def cutHost : Host := (stepping 18 (createWorkspace quietWorld, emptyHost)).2

/-- A workspace that was cut off before its marker stops every later constructor. -/
theorem workspaces_stuck :
    Starts ⟨emptyHost, none⟩
      ∧ (∃ session, Reaches quietWorld ⟨emptyHost, none⟩ ⟨cutHost, session⟩)
      ∧ ValidBoot secondBoot ∧ secondBoot ∉ cutHost.boots
      ∧ ((createWorkspace quietWorld).exec (cutHost.restarted secondBoot)).1.isOk = false := by
  refine ⟨starts_empty, ⟨_, .head .create (reaches_stepping 18 _ _)⟩, ⟨by decide, by decide⟩, ?_, ?_⟩
  · decide +kernel
  · decide +kernel

end CkGit.Workspace
