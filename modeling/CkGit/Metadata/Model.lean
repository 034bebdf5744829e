import CkGit.Base.Assoc
import CkGit.Events.Log

/-!
removeProjectMetadata of src/common/metadata_store.cpp with removeEntryAt and
openPrivateDirectoryAt. Below the state root are the directories checkouts and
projects, of which only what a name is of matters, and the event logs. A log is
rewritten byte by byte. The exclusive lock on the root is held throughout, so
nothing else runs between two operations; syncs are not modelled.
-/
namespace CkGit.Metadata
open CkGit.Base CkGit.Ci CkGit.Events

abbrev Path := List Bytes

inductive Entry where
  | directory (is_private : Bool)
  /-- A regular file, a link or a special file. -/
  | record (content : Bytes)
  deriving DecidableEq

/-- What is below the state root, the events aside. Whatever is in it is below directories. -/
structure Tree where
  nodes : List (Path × Entry)
  distinct : (nodes.map Prod.fst).Nodup
  placed : ∀ path entry, (path, entry) ∈ nodes → ∀ parent, parent <+: path → parent ≠ [] → parent ≠ path →
    ∃ is_private, (parent, .directory is_private) ∈ nodes

namespace Tree

def entry (tree : Tree) (path : Path) : Option Entry := Assoc.get path tree.nodes

/-- The names in a directory. -/
def directoryNames (tree : Tree) (path : Path) : List Bytes :=
  tree.nodes.filterMap fun node =>
    if node.1 ≠ [] ∧ node.1.dropLast = path then node.1.getLast? else none

/-- Unlinking, with what is below. -/
def remove (paths : List Path) (tree : Tree) : Tree where
  nodes := tree.nodes.filter fun node => !paths.any fun path => path.isPrefixOf node.1
  distinct := tree.distinct.sublist (List.filter_sublist.map Prod.fst)
  placed := by
    intro path entry member parent above nonempty other
    obtain ⟨inside, kept⟩ := List.mem_filter.mp member
    obtain ⟨is_private, found⟩ := tree.placed path entry inside parent above nonempty other
    refine ⟨is_private, List.mem_filter.mpr ⟨found, ?_⟩⟩
    simp only [Bool.not_eq_true', List.any_eq_false, List.isPrefixOf_iff_prefix] at kept ⊢
    exact fun gone listed start => kept gone listed (start.trans above)

end Tree

structure LogDirectory where
  is_private : Bool
  logs : EventDirectory
  /-- The names that are not of private regular files. -/
  unsafe_names : List Bytes

/-- Changes the file that a log is a name of. -/
def editFile (name : Bytes) (f : Bytes → Bytes) (logs : EventDirectory) : EventDirectory :=
  match logs.find name with
  | some file => { logs with files := logs.files.modify file f }
  | none => logs

/-- The state root. -/
structure MetadataState where
  is_private : Bool
  tree : Tree
  events : Option LogDirectory

namespace MetadataState

def remove (paths : List Path) (state : MetadataState) : MetadataState :=
  { state with tree := state.tree.remove paths }

def mapLogs (f : EventDirectory → EventDirectory) (state : MetadataState) : MetadataState :=
  { state with events := state.events.map fun directory => { directory with logs := f directory.logs } }

def editLog (name : Bytes) (f : Bytes → Bytes) (state : MetadataState) : MetadataState :=
  state.mapLogs (editFile name f)

/-- Whether the directory is there. -/
def openPrivateDirectoryAt (state : MetadataState) (path : Path) : Except String Bool :=
  match state.tree.entry path with
  | none => .ok false
  | some (.directory true) => .ok true
  | some (.directory false) => .error "metadata directory is not private and daemon-owned"
  | some (.record _) => .error "could not open metadata directory"

end MetadataState

def eventLogNames (directory : LogDirectory) : Except String (List Bytes) :=
  if directory.unsafe_names.any isEventLog then .error "server event archive is unsafe"
  else .ok (Events.eventLogNames directory.logs)

/-- The logs that hold an event of the project, every archive validated. -/
def findReplacements (project_name : Bytes) (state : MetadataState) : Except String (List Bytes) :=
  match state.events with
  | none => .ok []
  | some directory => do
    rejectIf (¬ directory.is_private) "metadata directory is not private and daemon-owned"
    let names ← eventLogNames directory
    let found ← names.mapM fun name => do
      let events ← readEvents directory.logs name
      return (name, events.any (·.project_name = project_name))
    return (found.filter (·.2)).map (·.1)

/-- Deeper directories are refused: the parameter counts the levels left. -/
def removeEntryAt (dry_run : Bool) (levels : Nat) (path : Path) : Prog MetadataState String Unit :=
  .read fun state =>
    match state.tree.entry path with
    | none => .done ()
    | some (.directory is_private) =>
      match levels with
      | 0 => .throw "project metadata exceeds maximum directory depth"
      | levels + 1 => do
        .ofExcept (rejectIf (¬ is_private) "metadata directory is not private and daemon-owned")
        .forEach (state.tree.directoryNames path) fun child => removeEntryAt dry_run levels (path ++ [child])
        .whenever (¬ dry_run) do
          .reads fun state =>
            rejectIf (state.tree.directoryNames path ≠ []) "could not remove project metadata directory"
          .modify (·.remove [path])
    | some (.record _) => .whenever (¬ dry_run) (.modify (·.remove [path]))

/-- A directory at depth 64 is the deepest. -/
def kLevels : Nat := 65

def recordDirectories : List Bytes := [ascii "checkouts", ascii "projects"]

def removeRecords (project_name : Bytes) (dry_run : Bool) : Prog MetadataState String Unit :=
  .forEach recordDirectories fun directory_name => do
    let present ← .reads (·.openPrivateDirectoryAt [directory_name])
    .whenever present (removeEntryAt dry_run kLevels [directory_name, project_name])

/-- The events of the other projects, as they are written. -/
def retained (project_name : Bytes) (events : List StateEvent) : Bytes :=
  (events.filter fun event => event.project_name ≠ project_name).flatMap serializeEvent

/-- One byte over the old one. -/
def overwrite (offset : Nat) (byte : UInt8) (content : Bytes) : Bytes :=
  content.take offset ++ byte :: content.drop (offset + 1)

def writeAll (name content : Bytes) : Prog MetadataState String Unit :=
  .forEach content.zipIdx fun (byte, offset) => .modify (·.editLog name (overwrite offset byte))

def readLog (name : Bytes) (state : MetadataState) : Except String (List StateEvent) :=
  match state.events with
  | none => .ok []
  | some directory => readEvents directory.logs name

def scrubLog (project_name name : Bytes) : Prog MetadataState String Unit := do
  let events ← .reads (readLog name)
  let retained := retained project_name events
  -- The log that is opened for writing was just verified.
  writeAll name retained
  .modify (·.editLog name (·.take retained.length))

def removeProjectMetadata (project_name : Bytes) (dry_run : Bool) : Prog MetadataState String Unit := do
  .ofExcept (rejectIf (¬ isValidProjectName project_name) "invalid project name for metadata removal")
  .reads fun state =>
    rejectIf (¬ state.is_private) "metadata state directory is not private and daemon-owned"
  let replacements ← .reads (findReplacements project_name)
  removeRecords project_name true
  .whenever (¬ dry_run) do
    removeRecords project_name false
    .forEach replacements (scrubLog project_name)

end CkGit.Metadata
