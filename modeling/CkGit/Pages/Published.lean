import CkGit.Pages.Model

/-!
A live site stays the complete copy it was published as, whatever publishes and
commits run at the same time, fail or stop. The code keeps it as long as nothing
works on the version that is live or that another publish is building, no commit
moves the pointer after a newer site went live, and no failure happens that the
code does not look at.
-/
namespace CkGit.Pages
open CkGit.Base CkGit.Ci

/-- The same nodes at the same paths. -/
def Copies (site tree : Tree) : Prop := ∀ path, Assoc.get path tree = Assoc.get path site

structure Role where
  publish : CiPublish
  /-- A commit, which reads the pointer first. -/
  commits : Bool
  seen : Option Bytes := none
  /-- The entry of the source the walk is at and those after it. -/
  left : List SourceEntry := []
  /-- The version as this publish made it. -/
  built : Option Tree := none
  /-- A failure was passed over. -/
  spoiled : Bool := false
  moved : Bool := false
  listed : List Bytes := []

def Role.atLastDirectory (role : Role) : Bool :=
  match role.left with
  | [⟨_, .directory⟩] => true
  | _ => false

/-- A failure the code does not look at: what an earlier publish left is still there, the walk
does not open, the last entry cannot be found, measured or made, a stream cannot write the rest it holds, or
the listing of the versions breaks off. -/
def spoils (role : Role) {β : Type} (op : PagesOp β) (reply : β) : Bool :=
  match op, reply with
  | .makeVersion _, reply => reply = .existed
  | .walk entries, reply => !reply && !entries.isEmpty
  | .relative _, reply | .fileSize _, reply => !reply && decide (role.left.length ≤ 1)
  | .change _ edit, reply =>
    !reply && match edit with
      | .close _ bytes => !bytes.isEmpty
      | .mkdir _ => role.atLastDirectory
      | _ => false
  | .writeStaging, reply => !reply
  | .listVersions, reply => reply.isNone
  | _, _ => false

/-- What the role tells apart from the spoiling. -/
def noted (role : Role) {β : Type} (op : PagesOp β) (reply : β) : Role :=
  match op, reply with
  | .makeVersion _, reply => if reply = .created then { role with built := some [] } else role
  | .walk entries, reply => if reply then { role with left := entries } else role
  | .increment, _ => { role with left := role.left.tail }
  | .change _ edit, reply =>
    if reply then
      { role with built := role.built.bind fun tree => (edit.apply (some tree)).getD (some tree) }
    else role
  | .rename _ _, reply => if reply then { role with moved := true, built := none } else role
  | .listVersions, reply => { role with listed := (reply.getD []).filter (isValidCiId ·) }
  | .readPointer, reply => { role with seen := readCurrent reply }
  | _, _ => role

/-- What publishes and commits ask for: they change their own version until the pointer is moved,
and what is to be pruned after it. -/
def roles : Protocol PagesOp Role where
  allowed role op :=
    match op with
    | .change id _ =>
      if role.moved then id ∈ pruned role.publish role.listed else id = role.publish.run_id
    | .makeVersion id => id = role.publish.run_id ∧ role.moved = false
    | .rename publish content =>
      publish = role.publish ∧ role.moved = false ∧ isValidCiId publish.run_id
        ∧ (role.commits → ∀ id, role.seen = some id → id ≤ publish.run_id)
        ∧ (role.spoiled = false → content = publish.run_id ++ ascii "\n"
          ∧ ∃ tree, role.built = some tree ∧ Copies (siteOf publish.entries) tree)
    | .report thrown => role.spoiled = false → thrown → role.moved = false
    | _ => True
  after role op reply :=
    { noted role op reply with spoiled := role.spoiled || spoils role op reply }

abbrev Host := Interleaved PagesOp Role Store

inductive Move where
  | publish (publish : CiPublish)
  | commit (publish : CiPublish)
  | advance (index : Nat) (fault : Fault)
  | crash (index : Nat)

def step (host : Host) (move : Move) : Host :=
  match move with
  | .publish publish => host.start ⟨{ publish, commits := false }, publishSite publish⟩
  | .commit publish => host.start ⟨{ publish, commits := true }, commitSite publish⟩
  | .advance index fault => host.advance roles (perform fault) index
  | .crash index => host.crash index

def runFrom (host : Host) (moves : List Move) : Host := moves.foldl step host

/-- The live version is the complete copy of its site. -/
def Whole (store : Store) : Prop :=
  ∀ id, store.live = some id → ∃ tree, store.version id = some tree ∧ Copies store.site tree

structure Sound (host : Host) : Prop where
  whole : Whole host.store
  /-- A publish that fails did not move the pointer. -/
  honest : ∀ process ∈ host.processes, ∀ next, process.rest = .call (.report true) next →
    process.note.moved = false

/-- The move renames the staged pointer. -/
def Renames (host : Host) (move : Move) : Prop :=
  ∃ index role publish content next, move = .advance index .none
    ∧ host.processes[index]? = some ⟨role, .call (.rename publish content) next⟩

structure Steady (host : Host) (move : Move) : Prop where
  /-- Only the pointer's rename changes what is live. -/
  kept : ¬ Renames host move → (step host move).store.live = host.store.live
    ∧ ∀ id, host.store.live = some id → (step host move).store.version id = host.store.version id
  /-- Pruning spares the live version and the newest ones. -/
  spared : ∀ index fault role id edit next, move = .advance index fault →
    host.processes[index]? = some ⟨role, .call (.change id edit) next⟩ → role.moved = true →
    host.store.live ≠ some id ∧ role.publish.keep_versions ≤ (role.listed.filter (id < ·)).length
  /-- A commit never goes back. -/
  forward : ∀ index fault process, move = .advance index fault → host.processes[index]? = some process →
    process.note.commits = true → ∀ before after, host.store.live = some before →
    (step host move).store.live = some after → before ≤ after

/-- Every state of the run is sound and every move steady. -/
def Kept (host : Host) (moves : List Move) : Prop :=
  ∀ count, Sound (runFrom host (moves.take count))
    ∧ ∀ move, moves[count]? = some move → Steady (runFrom host (moves.take count)) move

/-- The version a running publish is building. -/
def building (process : Process PagesOp Role) : Option (Bytes × Tree) :=
  match process with
  | ⟨role, .call _ _⟩ => role.built.map (role.publish.run_id, ·)
  | _ => none

/-- The version is not live and no other publish is building it. -/
def Unused (host : Host) (index : Nat) (id : Bytes) : Prop :=
  host.store.live ≠ some id ∧ ∀ other process, other ≠ index → host.processes[other]? = some process →
    ∀ tree, building process ≠ some (id, tree)

def OpMeets {β : Type} (host : Host) (index : Nat) (role : Role) (op : PagesOp β) : Prop :=
  match op with
  | .change id _ => Unused host index id
  | .makeVersion id => Unused host index id
  -- No newer site went live since the commit read the pointer.
  | .rename publish _ => role.commits → host.store.live = role.seen
      ∨ ∀ id, host.store.live = some id → id ≤ publish.run_id
  | _ => True

def Meets (host : Host) (move : Move) : Prop :=
  match move with
  | .advance index fault => host.NextMeets (fun role _ op =>
      OpMeets host index role op ∧ spoils role op (perform fault op host.store).1 = false) index
  | _ => True

/-- Every move meets the condition. -/
def RunMeets (host : Host) (moves : List Move) : Prop :=
  match moves with
  | [] => True
  | move :: rest => Meets host move ∧ RunMeets (step host move) rest

instance (host : Host) (index : Nat) (id : Bytes) : Decidable (Unused host index id) :=
  decidable_of_iff (host.store.live ≠ some id ∧ ∀ other < host.processes.length, other ≠ index →
      ((host.processes[other]?.bind building).all fun made => made.1 ≠ id) = true) (by
    refine and_congr_right fun _ => ⟨fun each other process different there tree making => ?_,
      fun each other inside different => ?_⟩
    · have none_builds := each other (List.getElem?_eq_some_iff.mp there).1 different
      rw [there, Option.bind_some, making] at none_builds
      simp at none_builds
    · rw [List.getElem?_eq_getElem inside, Option.bind_some]
      cases making : building host.processes[other] with
      | none => rfl
      | some made =>
        obtain ⟨of, tree⟩ := made
        have apart := each other _ different (List.getElem?_eq_getElem inside) tree
        rw [making] at apart
        simpa using apart)

instance {β : Type} (host : Host) (index : Nat) (role : Role) (op : PagesOp β) :
    Decidable (OpMeets host index role op) :=
  match op with
  | .change id _ | .makeVersion id => inferInstanceAs (Decidable (Unused host index id))
  | .rename publish _ => decidable_of_iff
      (role.commits = true → host.store.live = role.seen ∨ host.store.live.all (fun id => decide (id ≤ publish.run_id)) = true)
      (by simp [OpMeets, Option.all_eq_true])
  | .createVersions | .list _ | .walk _ | .increment | .relative _ | .symlinkStatus _ | .fileSize _ | .readFile _
  | .stage | .writeStaging | .listVersions | .readPointer | .report _ => .isTrue trivial

instance (host : Host) (move : Move) : Decidable (Meets host move) :=
  match move with
  | .advance index _ => inferInstanceAs (Decidable (host.NextMeets _ index))
  | .publish _ | .commit _ | .crash _ => .isTrue trivial

def decideRunMeets (host : Host) (moves : List Move) : Decidable (RunMeets host moves) :=
  match moves with
  | [] => .isTrue trivial
  | move :: rest =>
    have : Decidable (RunMeets (step host move) rest) := decideRunMeets _ rest
    inferInstanceAs (Decidable (Meets host move ∧ RunMeets (step host move) rest))

instance (host : Host) (moves : List Move) : Decidable (RunMeets host moves) := decideRunMeets host moves

end CkGit.Pages
