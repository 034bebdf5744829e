import CkGit.Base.Assoc
import CkGit.Base.Script
import CkGit.Ci.Names
import Mathlib.Data.List.Sort

/-!
Published sites: publishPagesSite and readCurrent (src/common/pages_store.cpp)
and the Pages part of commitCiRun (src/common/ci_results.cpp), for one project.
Every call of the file system is an operation of its own that may fail. A
directory is listed at once, and a write that fails writes nothing. The site of
a remote runner is taken where it is unpacked.
-/
namespace CkGit.Pages
open CkGit.Base CkGit.Ci

def kMaximumPagesSiteBytes : Nat := 8 * 2 ^ 30
def kMaximumPagesEntries : Nat := 100000

/-- The components of a path below the root of a site. -/
abbrev Path := List Bytes

inductive Node where
  | directory
  | file (content : Bytes)
  deriving DecidableEq

abbrev Tree := List (Path × Node)

/-- A regular file of a source: what the copy's stream writes out as it goes, and what it still
holds when it is closed. -/
structure SourceFile where
  flushed : List Bytes
  held : Bytes

def SourceFile.content (file : SourceFile) : Bytes := file.flushed.flatten ++ file.held

inductive Kind where
  | directory
  | regular (file : SourceFile)
  /-- A link or a special file. -/
  | other

structure SourceEntry where
  path : Path
  kind : Kind

def SourceEntry.node (entry : SourceEntry) : Option Node :=
  match entry.kind with
  | .directory => some .directory
  | .regular file => some (.file file.content)
  | .other => none

/-- The regular part of what these entries are. -/
def siteOf (entries : List SourceEntry) : Tree :=
  entries.filterMap fun entry => entry.node.map (entry.path, ·)

/-- The directory of a path is the root or among these entries. -/
def Rooted (before : List SourceEntry) (entry : SourceEntry) : Prop :=
  entry.path ≠ [] ∧ ∀ parent ∈ entry.path.inits, parent ≠ entry.path → parent ≠ [] →
    ∃ directory ∈ before, directory.path = parent ∧ directory.kind = .directory

/-- A directory in the order in which it is walked, each directory before what is in it. -/
structure Source where
  entries : List SourceEntry
  distinct : (entries.map (·.path)).Nodup
  rooted : ∀ before entry after, entries = before ++ entry :: after → Rooted before entry

def Source.site (source : Source) : Tree := siteOf source.entries

structure Store where
  versions : List (Bytes × Tree)
  once : (versions.map Prod.fst).Nodup
  /-- The content of the file current. -/
  pointer : Option Bytes
  /-- The site that the version in the pointer was published from. -/
  site : Tree

def Store.version (store : Store) (id : Bytes) : Option Tree := Assoc.get id store.versions

def Store.setVersion (store : Store) (id : Bytes) (version : Option Tree) : Store :=
  { store with versions := Assoc.set id version store.versions, once := Assoc.nodup_set store.once id version }

@[simp] theorem Store.version_setVersion (store : Store) (id other : Bytes) (version : Option Tree) :
    (store.setVersion id version).version other = if other = id then version else store.version other :=
  Assoc.get_set id other version store.versions

def isLineEnd (character : UInt8) : Bool := character == '\n'.toUInt8 || character == '\r'.toUInt8

/-- The run id in the pointer file. -/
def readCurrent (pointer : Option Bytes) : Option Bytes :=
  match pointer with
  | none => none
  | some content =>
    if content.length = 0 ∨ content.length > 128 then none
    else
      let id := (content.reverse.dropWhile isLineEnd).reverse
      if isValidCiId id then some id else none

def Store.live (store : Store) : Option Bytes := readCurrent store.pointer

/-- One change of a version directory. -/
inductive Edit where
  | unlink (path : Path)
  | rmdir
  | mkdir (path : Path)
  | create (path : Path)
  | write (path : Path) (bytes : Bytes)
  /-- The rest that a stream writes as it is closed. -/
  | close (path : Path) (bytes : Bytes)

def hasParent (tree : Tree) (path : Path) : Bool :=
  path.dropLast.isEmpty || decide (Assoc.get path.dropLast tree = some .directory)

/-- Writes to the end of an open file; an unlinked one is gone. -/
def append (tree : Tree) (path : Path) (bytes : Bytes) : Tree :=
  match Assoc.get path tree with
  | some (.file content) => Assoc.put path (.file (content ++ bytes)) tree
  | _ => tree

/-- The version afterwards; nothing where the change fails. -/
def Edit.apply (edit : Edit) (version : Option Tree) : Option (Option Tree) :=
  match edit, version with
  | .unlink path, some tree =>
    if tree.any fun entry => path.isPrefixOf entry.1 && entry.1 != path then none
    else some (some (Assoc.erase path tree))
  | .unlink _, none => some none
  | .rmdir, some tree => if tree.isEmpty then some none else none
  | .rmdir, none => some none
  | .mkdir path, some tree =>
    match Assoc.get path tree with
    | some .directory => some (some tree)
    | some (.file _) => none
    | none => if hasParent tree path then some (some (Assoc.put path .directory tree)) else none
  | .create path, some tree =>
    if Assoc.get path tree = some .directory ∨ ¬ hasParent tree path then none
    else some (some (Assoc.put path (.file []) tree))
  | .mkdir _, none | .create _, none => none
  | .write path bytes, some tree | .close path bytes, some tree => some (some (append tree path bytes))
  | .write _ _, none | .close _ _, none => some none

structure CiPublish where
  project : Bytes
  run_id : Bytes
  /-- Nothing where the source is not a directory. -/
  source : Option Source
  keep_versions : Nat

def CiPublish.entries (publish : CiPublish) : List SourceEntry := publish.source.elim [] (·.entries)

inductive Made where
  | created
  | existed
  | failed
  deriving DecidableEq

inductive PagesOp : Type → Type where
  | createVersions : PagesOp Bool
  /-- The paths below a version, what is in a directory before it. -/
  | list (id : Bytes) : PagesOp (List Path)
  | makeVersion (id : Bytes) : PagesOp Made
  | change (id : Bytes) (edit : Edit) : PagesOp Bool
  /-- Opens the walk of the source. -/
  | walk (entries : List SourceEntry) : PagesOp Bool
  /-- Goes on to the next entry. -/
  | increment : PagesOp Bool
  /-- Finds the path of an entry below the source. -/
  | relative (path : Path) : PagesOp Bool
  | symlinkStatus (path : Path) : PagesOp Bool
  | fileSize (path : Path) : PagesOp Bool
  | readFile (path : Path) : PagesOp Bool
  | stage : PagesOp Bool
  | writeStaging : PagesOp Bool
  | rename (publish : CiPublish) (content : Bytes) : PagesOp Bool
  | listVersions : PagesOp (Option (List Bytes))
  | readPointer : PagesOp (Option Bytes)
  /-- What the caller gets. -/
  | report (thrown : Bool) : PagesOp Unit

inductive Fault where
  | none
  | fails
  | throws
  deriving DecidableEq

def perform (fault : Fault) {β : Type} (op : PagesOp β) (store : Store) : β × Store :=
  let works := fault == .none
  match op with
  | .createVersions | .walk _ | .increment | .relative _ | .symlinkStatus _ | .fileSize _ | .readFile _ | .stage
  | .writeStaging => (works, store)
  | .list id => (if works then ((store.version id).getD []).map Prod.fst else [], store)
  | .makeVersion id =>
    if !works then (.failed, store)
    else match store.version id with
    | some _ => (.existed, store)
    | none => (.created, store.setVersion id (some []))
  | .change id edit =>
    match edit.apply (store.version id) with
    | some version =>
      if works then (true, store.setVersion id version)
      else (false, store)
    | none => (false, store)
  | .rename publish content =>
    if works then (true, { store with pointer := some content, site := siteOf publish.entries })
    else (false, store)
  | .listVersions =>
    match fault with
    | .none => (some (store.versions.map Prod.fst), store)
    | .fails => (some [], store)
    | .throws => (none, store)
  | .readPointer => (if works then store.pointer else none, store)
  | .report _ => ((), store)

abbrev Publishing := ExceptT String (Script PagesOp)

def ask {β : Type} (op : PagesOp β) : Publishing β := ExceptT.lift (.ask op)

def removeEach (id : Bytes) (paths : List Path) : Script PagesOp Unit :=
  match paths with
  | [] => do
    let _ ← .ask (.change id .rmdir)
    pure ()
  | path :: rest => do
    if ← .ask (.change id (.unlink path)) then removeEach id rest else pure ()

/-- remove_all; its error is not looked at. -/
def removeAll (id : Bytes) : Script PagesOp Unit := do
  removeEach id (← .ask (.list id))

def makeEach (id : Bytes) (paths : List Path) : Script PagesOp Bool :=
  match paths with
  | [] => pure true
  | path :: rest => do
    if ← .ask (.change id (.mkdir path)) then makeEach id rest else pure false

/-- create_directories below a version. -/
def createDirectories (id : Bytes) (path : Path) : Script PagesOp Bool := makeEach id path.inits.tail

def writeParts (id : Bytes) (path : Path) (parts : List Bytes) : Script PagesOp Bool :=
  match parts with
  | [] => pure true
  | part :: rest => do
    if ← .ask (.change id (.write path part)) then writeParts id path rest else pure false

section
variable (publish : CiPublish)

/-- Takes the version down again and throws. -/
def giveUp {α : Type} (text : String) : Publishing α := do
  ExceptT.lift (removeAll publish.run_id)
  throw text

/-- Looks at the streams and closes the copy. -/
def closeFile (path : Path) (file : SourceFile) (written : Bool) : Publishing Unit := do
  let read ← ask (.readFile path)
  if !read || !written then giveUp publish "could not copy a site file"
  else do
    let _ ← ask (.change publish.run_id (.close path file.held))

/-- Whether the directory of the copy could not be created. -/
def copyFile (path : Path) (file : SourceFile) : Publishing Bool := do
  let id := publish.run_id
  let made ← ExceptT.lift (createDirectories id path.dropLast)
  let opened ← ask (.change id (.create path))
  let written ← if opened then ExceptT.lift (writeParts id path file.flushed) else pure false
  closeFile publish path file written
  return !made

/-- The rest of the walk, the entries and bytes so far and the error of the entry before. -/
def copyEntries (entries : List SourceEntry) (count total : Nat) (error : Bool) : Publishing Unit :=
  match entries with
  | [] => pure ()
  | entry :: rest => do
    let next := fun (total : Nat) (error : Bool) => do
      if ← ask .increment then copyEntries rest (count + 1) total error
      else throw "filesystem error: cannot increment recursive directory iterator"
    if error then throw "could not read the site source"
    else if count + 1 > kMaximumPagesEntries then giveUp publish "the site has too many files"
    else if !(← ask (.relative entry.path)) then next total true
    else if !(← ask (.symlinkStatus entry.path)) then throw "filesystem error: symlink_status"
    else match entry.kind with
    | .directory => next total !(← ExceptT.lift (createDirectories publish.run_id entry.path))
    | .other => next total false
    | .regular file =>
      if ← ask (.fileSize entry.path) then
        let total := total + file.content.length
        if total > kMaximumPagesSiteBytes then giveUp publish "the site exceeds the size limit"
        else next total (← copyFile publish entry.path file)
      else next total true

/-- The versions beyond the newest ones that are kept. -/
def pruned (ids : List Bytes) : List Bytes :=
  ((ids.insertionSort (· ≥ ·)).drop publish.keep_versions).filter (· ≠ publish.run_id)

def prune : Publishing Unit := do
  if publish.keep_versions > 0 then
    match ← ask .listVersions with
    | none => throw "filesystem error: cannot increment directory iterator"
    | some ids =>
      ExceptT.lift (.accumulate (pruned publish (ids.filter (isValidCiId ·))) () fun _ id => removeAll id)
  else pure ()

/-- Points current at the version and prunes. -/
def movePointer : Publishing Unit := do
  if !(← ask .stage) then giveUp publish "could not stage the current pointer"
  else do
    let flushed ← ask .writeStaging
    if !(← ask (.rename publish (if flushed then publish.run_id ++ ascii "\n" else []))) then
      giveUp publish "could not update the current pointer"
    else prune publish

def publishPagesSite : Publishing Unit := do
  if !isValidProjectName publish.project then throw "invalid project name for a site"
  else if !isValidCiId publish.run_id then throw "invalid run id for a site"
  else if publish.source.isNone then throw "the site source is not a directory"
  else if !(← ask .createVersions) then throw "could not create the pages directory"
  else do
    ExceptT.lift (removeAll publish.run_id)
    if (← ask (.makeVersion publish.run_id)) = .failed then
      throw "could not create the site version directory"
    else do
      if ← ask (.walk publish.entries) then copyEntries publish publish.entries 0 0 false
      movePointer publish

/-- A call of publishPagesSite. -/
def publishSite : Script PagesOp Unit := do
  let result ← (publishPagesSite publish).run
  .ask (.report (result matches .error _))

/-- The Pages part of commitCiRun. -/
def commitSite : Script PagesOp Unit := do
  let current := readCurrent (← .ask .readPointer)
  if current.any fun current => publish.run_id < current then .ask (.report false)
  else publishSite publish

end
end CkGit.Pages
