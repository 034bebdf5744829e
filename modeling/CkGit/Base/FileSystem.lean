import CkGit.Base.Assoc
import CkGit.Base.Text
import Mathlib.Data.List.Induction

/-!
A file system with symbolic links, as a program sees it through its paths. Nodes
stand at real paths, the names from the root down; a path that a program hands
over is walked name by name, through the links on its way.
-/
namespace CkGit.Base

abbrev Path := List Bytes

inductive Node where
  | directory
  | file (content : Bytes)
  | link (absolute : Bool) (target : Path)
  /-- A device, a socket or a pipe. -/
  | special
  deriving DecidableEq

def Node.size (node : Node) : Nat :=
  match node with
  | .file content => content.length
  | _ => 0

/-- Every node but the root stands in a directory. -/
structure FileSystem where
  nodes : List (Path × Node)
  once : (nodes.map Prod.fst).Nodup
  rooted : ∀ path node, Assoc.get path nodes = some node →
    path ≠ [] ∧ (path.dropLast = [] ∨ Assoc.get path.dropLast nodes = some .directory)

namespace FileSystem
variable {files grown : FileSystem} {path location other : Path} {node : Node}

/-- What stands at a real path. -/
def get (files : FileSystem) (path : Path) : Option Node :=
  if path = [] then some .directory else Assoc.get path files.nodes

@[simp] theorem get_root (files : FileSystem) : files.get [] = some .directory := if_pos rfl

theorem get_below (below : path ≠ []) : files.get path = Assoc.get path files.nodes := if_neg below

theorem parent_of_get (below : path ≠ []) (there : files.get path = some node) :
    files.get path.dropLast = some .directory := by
  rw [get_below below] at there
  rcases (files.rooted path node there).2 with top | parent
  · rw [top, get_root]
  · rw [get_below fun top => ?_, parent]
    rw [top] at parent
    exact (files.rooted [] _ parent).1 rfl

/-- A node stands in a directory all the way up. -/
theorem above_of_get (there : files.get (location ++ path) = some node) (below : path ≠ []) :
    files.get location = some .directory := by
  induction path using List.reverseRecOn generalizing node with
  | nil => exact absurd rfl below
  | append_singleton front last ih =>
    have parent := parent_of_get (by simp) there
    rw [← List.append_assoc, List.dropLast_concat] at parent
    by_cases top : front = []
    · rwa [top, List.append_nil] at parent
    · exact ih parent top

/-- Nothing stands below what is not there. -/
theorem get_vacant (vacant : files.get location = none) (rest : Path) : files.get (location ++ rest) = none := by
  by_cases top : rest = []
  · rwa [top, List.append_nil]
  · refine Option.eq_none_iff_forall_ne_some.mpr fun node there => ?_
    have directory := above_of_get there top
    rw [vacant] at directory
    cases directory

/-- Puts a node into a directory, over anything but a directory. -/
def place (files : FileSystem) (location : Path) (node : Node) : FileSystem :=
  if free : files.get location.dropLast = some .directory ∧ files.get location ≠ some .directory then
    { nodes := Assoc.put location node files.nodes
      once := Assoc.nodup_set files.once location (some node)
      rooted := by
        intro path other there
        have below : location ≠ [] := fun top => free.2 (top ▸ files.get_root)
        rw [Assoc.get_put] at there ⊢
        split at there
        · next same =>
          subst same
          refine ⟨below, ?_⟩
          by_cases top : path.dropLast = []
          · exact .inl top
          · rw [if_neg fun again => ?_]
            · exact .inr (get_below top ▸ free.1)
            · exact free.2 (again ▸ free.1)
        · refine ⟨(files.rooted path other there).1, ?_⟩
          rcases (files.rooted path other there).2 with top | parent
          · exact .inl top
          · rw [if_neg fun again => ?_]
            · exact .inr parent
            · exact free.2 (again ▸ get_below (files.rooted _ _ parent).1 ▸ parent) }
  else files

theorem get_place (parent : files.get location.dropLast = some .directory)
    (free : files.get location ≠ some .directory) (path : Path) :
    (files.place location node).get path = if path = location then some node else files.get path := by
  have below : location ≠ [] := fun top => free (top ▸ files.get_root)
  rw [place, dif_pos ⟨parent, free⟩]
  by_cases top : path = []
  · rw [top, get_root, get_root, if_neg fun same => below same.symm]
  · rw [get_below top, get_below top, Assoc.get_put]

/-- Removes what stands at a real path and below. -/
def removeTree (files : FileSystem) (location : Path) : FileSystem where
  nodes := files.nodes.filter fun entry => ¬ location <+: entry.1
  once := files.once.sublist (List.filter_sublist.map _)
  rooted := by
    intro path node there
    have kept := List.mem_filter.mp (Assoc.mem_of_get there)
    have known := files.rooted path node (Assoc.get_of_mem files.once kept.1)
    refine ⟨known.1, known.2.imp_right fun parent => ?_⟩
    have apart : ¬ location <+: path := of_decide_eq_true kept.2
    rw [Assoc.get_filter, parent]
    exact fun _ => decide_eq_true fun inside => apart (inside.trans (List.dropLast_prefix path))

theorem get_removeTree (below : location ≠ []) (path : Path) :
    (files.removeTree location).get path = if location <+: path then none else files.get path := by
  by_cases top : path = []
  · have apart : ¬ location <+: path := fun inside => below (List.prefix_nil.mp (top ▸ inside))
    rw [if_neg apart, top, get_root, get_root]
  · rw [get_below top, get_below top]
    split
    · next inside =>
      refine Assoc.get_absent fun member => ?_
      obtain ⟨entry, kept, same⟩ := List.mem_map.mp member
      have apart : ¬ location <+: entry.1 := of_decide_eq_true (List.mem_filter.mp kept).2
      exact apart (same ▸ inside)
    · next apart => exact Assoc.get_filter fun _ => decide_eq_true apart

/-- Walks a path from a directory; a link goes on with its own path before the rest. -/
def walk (files : FileSystem) (through : Path → Path → Option Path) (place : Path) : Path → Option Path
  | [] => some place
  | name :: rest =>
    if name = ascii "." then files.walk through place rest
    else if name = ascii ".." then files.walk through place.dropLast rest
    else match files.get (place ++ [name]) with
      | some .directory => files.walk through (place ++ [name]) rest
      | some (.link absolute target) => through (if absolute then [] else place) (target ++ rest)
      | _ => none

/-- The real path of the directory that a path leads to, through so many links at most. -/
def resolve (files : FileSystem) : Nat → Path → Path → Option Path
  | 0 => files.walk fun _ _ => none
  | links + 1 => files.walk (files.resolve links)

def kMaximumLinks : Nat := 40

def directoryAt (files : FileSystem) (path : Path) : Option Path := files.resolve kMaximumLinks [] path

/-- A name that stands for an entry of a directory. -/
def isEntryName (name : Bytes) : Bool := name ≠ ascii "." && name ≠ ascii ".."

/-- Where the last name of a path belongs; a link there is not followed. -/
def locate (files : FileSystem) (path : Path) : Option Path :=
  match path.getLast? with
  | some name =>
    if isEntryName name then (files.directoryAt path.dropLast).map (· ++ [name]) else none
  | none => none

/-- lstat. -/
def symlinkStatus (files : FileSystem) (path : Path) : Option Node :=
  match files.locate path with
  | some location => files.get location
  | none => (files.directoryAt path).map fun _ => .directory

/-- Where open(2) looks for a file or creates one: a link at the end is followed. -/
def fileAt (files : FileSystem) (links : Nat) (path : Path) : Option Path :=
  match files.locate path with
  | none => none
  | some location =>
    match files.get location with
    | some (.link absolute target) =>
      match links with
      | 0 => none
      | links + 1 => files.fileAt links (if absolute then target else location.dropLast ++ target)
    | _ => some location

theorem resolve_eq (files : FileSystem) (links : Nat) (place : Path) (path : Path) :
    files.resolve links place path = files.walk (match links with
      | 0 => fun _ _ => none
      | links + 1 => files.resolve links) place path := by
  cases links <;> rfl

@[simp] theorem resolve_nil (files : FileSystem) (links : Nat) (place : Path) :
    files.resolve links place [] = some place := by
  cases links <;> rfl

theorem resolve_directory {links : Nat} {place : Path} {name : Bytes} (entry : isEntryName name)
    (there : files.get (place ++ [name]) = some .directory) (rest : Path) :
    files.resolve links place (name :: rest) = files.resolve links (place ++ [name]) rest := by
  have plain := Bool.and_eq_true_iff.mp entry
  rw [resolve_eq, resolve_eq, walk, if_neg (of_decide_eq_true plain.1), if_neg (of_decide_eq_true plain.2), there]

/-- Directories are entered as they are named. -/
theorem resolve_directories {links : Nat} {place : Path} {names : Path} (entries : ∀ name ∈ names, isEntryName name)
    (there : ∀ front, front <+: names → front ≠ [] → files.get (place ++ front) = some .directory) :
    files.resolve links place names = some (place ++ names) := by
  induction names generalizing place with
  | nil => simp
  | cons name rest ih =>
    have first := there [name] ⟨rest, rfl⟩ (List.cons_ne_nil _ _)
    rw [resolve_directory (entries name List.mem_cons_self) first, ih]
    · simp
    · exact fun other member => entries other (List.mem_cons_of_mem _ member)
    · intro front inside _
      rw [List.append_assoc]
      exact there (name :: front) (List.prefix_cons_inj name |>.mpr inside) (List.cons_ne_nil _ _)

/-- A walk ends in a directory. -/
theorem resolve_get {links : Nat} {place reached : Path} {path : Path}
    (walked : files.resolve links place path = some reached) (start : files.get place = some .directory) :
    files.get reached = some .directory := by
  have step : ∀ {through : Path → Path → Option Path},
      (∀ place path, through place path = some reached → files.get place = some .directory →
        files.get reached = some .directory) →
      ∀ {place path}, files.walk through place path = some reached → files.get place = some .directory →
      files.get reached = some .directory := by
    intro through deeper place path
    induction path generalizing place with
    | nil =>
      intro here start
      cases here
      exact start
    | cons name rest ih =>
      intro walked start
      rw [walk] at walked
      split at walked
      · exact ih walked start
      · split at walked
        · refine ih walked ?_
          by_cases top : place = []
          · rw [top, List.dropLast_nil, get_root]
          · exact parent_of_get top start
        · split at walked
          · next there => exact ih walked there
          · refine deeper _ _ walked ?_
            split
            · exact files.get_root
            · exact start
          · cases walked
  induction links generalizing place path with
  | zero => exact step (fun _ _ none => by cases none) walked start
  | succ links ih => exact step (fun _ _ => ih) walked start

/-- A path goes on from where its front leads. -/
theorem resolve_append {links : Nat} {place reached names : Path} {path : Path}
    (front : files.resolve links place path = some reached)
    (onward : ∀ links, files.resolve links reached names = some (reached ++ names)) :
    files.resolve links place (path ++ names) = some (reached ++ names) := by
  have step : ∀ {through : Path → Path → Option Path},
      (∀ place path, through place path = some reached →
        through place (path ++ names) = some (reached ++ names)) →
      files.walk through reached names = some (reached ++ names) → ∀ {place path},
      files.walk through place path = some reached →
      files.walk through place (path ++ names) = some (reached ++ names) := by
    intro through deeper ends place path
    induction path generalizing place with
    | nil =>
      intro here
      cases here
      exact ends
    | cons name rest ih =>
      intro front
      rw [walk] at front
      rw [List.cons_append, walk]
      split at front
      · next dot => exact (if_pos dot).trans (ih front)
      · next entry =>
        rw [if_neg entry]
        split at front
        · next up => exact (if_pos up).trans (ih front)
        · next down =>
          rw [if_neg down]
          split at front
          · exact ih front
          · exact List.append_assoc _ _ names ▸ deeper _ _ front
          · cases front
  induction links generalizing place path with
  | zero => exact step (fun _ _ none => by cases none) (onward 0) front
  | succ links ih => exact step (fun _ _ => ih) (onward (links + 1)) front

/-- Nothing that a walk enters has gone. -/
def Keeps (files grown : FileSystem) : Prop :=
  ∀ path node, files.get path = some node → grown.get path = some node

theorem resolve_keeps (kept : Keeps files grown) {links : Nat} {place reached : Path} {path : Path}
    (before : files.resolve links place path = some reached) : grown.resolve links place path = some reached := by
  have step : ∀ {through through' : Path → Path → Option Path},
      (∀ place path, through place path = some reached → through' place path = some reached) → ∀ {place path}, files.walk through place path = some reached →
      grown.walk through' place path = some reached := by
    intro through through' deeper place path
    induction path generalizing place with
    | nil => exact id
    | cons name rest ih =>
      intro before
      rw [walk] at before ⊢
      split at before
      · next dot => exact (if_pos dot).trans (ih before)
      · next entry =>
        rw [if_neg entry]
        split at before
        · next up => exact (if_pos up).trans (ih before)
        · next down =>
          rw [if_neg down]
          split at before
          · next there =>
            rw [kept _ _ there]
            exact ih before
          · next there =>
            rw [kept _ _ there]
            exact deeper _ _ before
          · cases before
  induction links generalizing place path with
  | zero => exact step (fun _ _ none => by cases none) before
  | succ links ih => exact step (fun _ _ => ih) before

theorem locate_eq {name : Bytes} (entry : isEntryName name) (path : Path) :
    files.locate (path ++ [name]) = (files.directoryAt path).map (· ++ [name]) := by
  simp [locate, entry]

theorem locate_some (found : files.locate path = some location) :
    ∃ front name, path = front ++ [name] ∧ isEntryName name ∧
      ∃ parent, files.directoryAt front = some parent ∧ location = parent ++ [name] := by
  unfold locate at found
  split at found
  · next name last =>
    split at found
    · next entry =>
      obtain ⟨parent, there, rfl⟩ := Option.map_eq_some_iff.mp found
      exact ⟨path.dropLast, name, (List.dropLast_append_getLast? name last).symm, entry, parent, there, rfl⟩
    · cases found
  · cases found

end FileSystem
end CkGit.Base
