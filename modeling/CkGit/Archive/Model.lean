import CkGit.Base.Checks
import CkGit.Base.FileSystem
import CkGit.Base.Prog

/-!
Unpacking an archive: extractRegularTreeTar (src/archive/tar.cpp), as on POSIX.
What the archive library reads out of the file is any sequence of headers and
data. A call of the file system may be refused, and so may each step of a removal.
-/
namespace CkGit.Archive
open CkGit.Base

def backslash : UInt8 := '\\'.toUInt8

structure TarExtractOptions where
  max_archive_bytes : Nat
  max_bytes : Nat
  max_file_bytes : Nat
  max_entries : Nat
  timeout : Int
  skip_non_regular : Bool

inductive FileType where
  | directory
  | regular
  | other
  deriving DecidableEq

/-- One call of archive_read_data. -/
inductive Received where
  | data (bytes : Bytes)
  | invalid
  /-- The callback that reads the archive file threw. -/
  | inputFailure (error : String)

structure Entry where
  pathname : Option Bytes
  filetype : FileType
  hardlink : Bool
  symlink : Bool
  sparse_count : Nat
  size : Int
  data : List Received
  /-- What archive_read_data_skip ends with. -/
  skipped : Except String Unit

structure Tar where
  opened : Except String Unit
  headers : List (Except String Entry)
  closed : Except String Unit

/-- What the clock and the caller say at the checks, and which calls of the file system are
refused: at its number, and after how many bytes of a write. -/
structure World where
  locale : Except String Unit
  check : Nat → Except String Unit
  refusal : Nat → Option Nat
  /-- Which removals of a node are refused. -/
  stays : Nat → Bool
  /-- The order in which a tree is removed, what is in a directory before it. -/
  order : List Path → List Path
  order_perm : ∀ paths, (order paths).Perm paths
  order_inward : ∀ paths, (order paths).Pairwise fun first second => first <+: second → first = second

structure Host where
  files : FileSystem
  calls : Nat

abbrev Call := Prog Host String

namespace World
variable (world : World)

def nextCall : Call Nat := do
  let number ← Prog.gets Host.calls
  Prog.modify fun host => { host with calls := host.calls + 1 }
  return number

def checked : Call Unit := do
  Prog.ofExcept (world.check (← nextCall))

/-- Throws where the call is refused. -/
def allowed (error : String) : Call Unit := do
  match world.refusal (← nextCall) with
  | some _ => Prog.throw error
  | none => return ()

/-- std::filesystem::create_directory: whether it made one. -/
def createDirectory (path : Path) : Call Bool := do
  let files ← Prog.gets Host.files
  match files.locate path with
  | some location =>
    if files.get location = none then
      world.allowed "cannot create directory"
      Prog.modify fun host => { host with files := host.files.place location .directory }
      return true
    else if (files.directoryAt path).isSome then return false
    else Prog.throw "cannot create directory"
  | none =>
    if (files.directoryAt path).isSome then return false
    else Prog.throw "cannot create directory"

/-- Opens a stream for writing: a file is made or emptied. -/
def openFile (path : Path) : Call Path := do
  let files ← Prog.gets Host.files
  match files.fileAt FileSystem.kMaximumLinks path with
  | some location =>
    if files.get location = some .directory then Prog.throw "cannot create extracted file"
    else
      world.allowed "cannot create extracted file"
      Prog.modify fun host => { host with files := host.files.place location (.file []) }
      return location
  | none => Prog.throw "cannot create extracted file"

def appended (files : FileSystem) (location : Path) (bytes : Bytes) : FileSystem :=
  match files.get location with
  | some (.file content) => files.place location (.file (content ++ bytes))
  | _ => files

/-- A write that is refused may have stored a part. -/
def write (location : Path) (bytes : Bytes) : Call Unit := do
  match world.refusal (← nextCall) with
  | some stored =>
    Prog.modify fun host => { host with files := appended host.files location (bytes.take stored) }
    Prog.throw "cannot write extracted file"
  | none => Prog.modify fun host => { host with files := appended host.files location bytes }

/-- Removes one node; a directory that is not empty stays. -/
def unlinked (files : FileSystem) (path : Path) : Option FileSystem :=
  if files.nodes.any fun entry => path.isPrefixOf entry.1 && entry.1 != path then none
  else some (files.removeTree path)

/-- One node after the other, up to the first that stays. -/
def removeEach : List Path → Call Unit
  | [] => return ()
  | path :: rest => do
    let number ← nextCall
    if world.stays number then return ()
    else match unlinked (← Prog.gets Host.files) path with
      | none => return ()
      | some files =>
        Prog.modify fun host => { host with files }
        removeEach rest

/-- std::filesystem::remove_all; its error is not looked at. -/
def removeAll (path : Path) : Call Unit := do
  let files ← Prog.gets Host.files
  match files.locate path with
  | some location =>
    world.removeEach (world.order ((files.nodes.map Prod.fst).filter fun inside => location.isPrefixOf inside))
  | none => return ()

end World

/-- The names of a path of the archive, the root of the tree without one. -/
def components (path : Bytes) : Except String Path :=
  if path.head? = some slash then .error "archive path must be relative"
  else (path.splitOn slash).foldlM (fun result name =>
    if name = ascii "." ∨ name = [] then .ok result
    else if name = ascii ".." ∨ backslash ∈ name ∨ colon ∈ name ∨ 0 ∈ name then .error "unsafe archive path"
    else .ok (result ++ [name])) []

/-- The pathname of a header, as a C string. -/
def Entry.name (entry : Entry) : Bytes := (entry.pathname.getD []).takeWhile (· ≠ 0)

def Entry.parts (entry : Entry) : Except String Path := do
  let raw := entry.name
  rejectIf (raw = [] ∨ raw.length > 4096) "invalid archive pathname"
  rejectIf (backslash ∈ raw) "unsafe archive path separator"
  let parts ← components raw
  rejectIf (parts.length > 64) "archive pathname is too deep"
  return parts

/-- Neither a link nor a special node. -/
def Entry.plain (entry : Entry) : Bool :=
  (entry.filetype == .directory || entry.filetype == .regular) && !entry.hardlink && !entry.symlink

section
variable (world : World) (options : TarExtractOptions) (destination : Path)

/-- A directory on the way to an entry, or the entry itself. -/
def enterDirectory (path : Path) : Call Unit := do
  let created ← world.createDirectory path
  if created then return ()
  else match ← Prog.gets fun host => host.files.symlinkStatus path with
    | some .directory => return ()
    | some (.file _) => Prog.throw "archive parent is not a directory"
    | _ => Prog.throw "archive input is not a regular file or directory"

/-- Makes so many of the directories. -/
def makeParts (path : Path) : Nat → Path → Call Path
  | _, [] => return path
  | directories, part :: rest => do
    world.checked
    let next := path ++ [part]
    if directories = 0 then makeParts next 0 rest
    else
      enterDirectory world next
      makeParts next (directories - 1) rest

/-- The data of one file, up to the size its header declares. -/
def writeData (location : Path) (declared : Nat) : Nat → List Received → Call Nat
  | written, [] => do
    world.checked
    return written
  | written, received :: rest => do
    world.checked
    match received with
    | .inputFailure error => Prog.throw error
    | .invalid => Prog.throw "archive file data is invalid"
    | .data bytes =>
      if bytes = [] then return written
      else if bytes.length > declared - written then Prog.throw "archive file exceeds declared size"
      else
        world.write location bytes
        writeData location declared (written + bytes.length) rest

/-- The bytes of all files so far, after this one. No subtraction wraps: the totals stay under
their limits. -/
def extractFile (path : Path) (total : Nat) (entry : Entry) : Call Nat := do
  let declared := entry.size.toNat
  Prog.ofExcept (rejectIf (entry.size < 0 ∨ declared > options.max_file_bytes
    ∨ declared > options.max_bytes - total) "archive content exceeds size cap")
  let status ← Prog.gets fun host => host.files.symlinkStatus path
  Prog.ofExcept (rejectIf (status.isSome = true) "duplicate archive file")
  let location ← world.openFile path
  let written ← writeData world location declared 0 entry.data
  Prog.ofExcept (rejectIf (written ≠ declared) "archive file is truncated")
  world.allowed "cannot finish extracted file"
  return total + written

def extractEntry (total : Nat) (entry : Entry) : Call Nat := do
  let parts ← Prog.ofExcept entry.parts
  if entry.plain then
    let directory := entry.filetype = .directory
    Prog.ofExcept (rejectIf ((¬ directory ∧ parts = []) ∨ entry.sparse_count ≠ 0) "unsupported archive entry")
    let path ← makeParts world destination (if directory then parts.length else parts.length - 1) parts
    if directory then
      Prog.ofExcept (rejectIf (entry.size ≠ 0) "archive directory contains data")
      return total
    else extractFile world options path total entry
  else if options.skip_non_regular then
    Prog.ofExcept entry.skipped
    return total
  else Prog.throw "archive contains a link or special entry"

def extractEntries : Nat → Nat → List (Except String Entry) → Call Unit
  | _, _, [] => world.checked
  | count, total, header :: rest => do
    world.checked
    let entry ← Prog.ofExcept header
    Prog.ofExcept (rejectIf (count + 1 > options.max_entries) "archive entry count exceeds limit")
    let total ← extractEntry world options destination total entry
    extractEntries (count + 1) total rest

def extractAll (tar : Tar) : Call Unit := do
  Prog.ofExcept tar.opened
  extractEntries world options destination 0 0 tar.headers
  Prog.ofExcept tar.closed

/-- What is at the source, when it is a regular file. -/
def requireArchive (files : FileSystem) (source : Path) : Except String Unit :=
  match files.symlinkStatus source with
  | some (.file content) =>
    if content.length > options.max_archive_bytes then .error "archive exceeds input size cap or is not a file"
    else if content.length % 512 ≠ 0 then .error "archive has a partial TAR block"
    else .ok ()
  | some .directory => .error "archive exceeds input size cap or is not a file"
  | _ => .error "archive input is not a regular file or directory"

def extractRegularTreeTar (source : Path) (tar : Tar) : Call Unit := do
  Prog.ofExcept (rejectIf (options.max_archive_bytes = 0 ∨ options.max_bytes = 0 ∨ options.max_file_bytes = 0
    ∨ options.max_entries = 0 ∨ options.timeout ≤ 0) "positive archive extraction limits required")
  Prog.reads fun host => requireArchive options host.files source
  Prog.ofExcept world.locale
  let created ← world.createDirectory destination
  Prog.ofExcept (rejectIf (created = false) "archive destination already exists")
  match ← (extractAll world options destination tar).attempt with
  | .ok _ => return ()
  | .error error =>
    world.removeAll destination
    Prog.throw error

end
end CkGit.Archive
