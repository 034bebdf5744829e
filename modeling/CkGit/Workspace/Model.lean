import CkGit.Base.Checks
import CkGit.Base.FileSystem
import CkGit.Base.Prog

/-!
The workspaces of the macOS VM runner below one work root: how the constructor
recovers what an earlier runner left and clones the VM, and how a workspace is
removed once its VM has stopped. A system call, and the checks of owner, mode and
device that go with it, may be refused; a synced change lasts.
-/
namespace CkGit.Workspace
open Base

/-- The names in a directory, in some order. -/
def namesIn (files : FileSystem) (dir : Path) : List Bytes :=
  files.nodes.filterMap fun entry => if entry.1.dropLast = dir then entry.1.getLast? else none

/-- `unlink` of what is not a directory. -/
def unlinked (files : FileSystem) (path : Path) : FileSystem :=
  if files.get path = some .directory then files else files.removeTree path

/-- `rmdir`, of an empty directory only. -/
def withoutDirectory (files : FileSystem) (path : Path) : FileSystem :=
  if files.get path = some .directory ∧ namesIn files path = [] then files.removeTree path else files

def runnerLock : Bytes := ascii ".ckgit-runner.lock"
def markerName : Bytes := ascii ".ckgit-workspace"
def vmName : Bytes := ascii "vm"
def exchangeName : Bytes := ascii "exchange"
def stoppedName : Bytes := ascii ".ckgit-vm-stopped"
def useLockName : Bytes := ascii ".ckgit-vm-use.lock"
def disposableName : Bytes := ascii ".ckgit-disposable-vm"

def markerPath (name : Bytes) : Path := [name, markerName]
def vmPath (name : Bytes) : Path := [name, vmName]
def stoppedPath (name : Bytes) : Path := [name, vmName, stoppedName]
def useLockPath (name : Bytes) : Path := [name, vmName, useLockName]

/-- Who has the use lock of a workspace. -/
inductive Holder where
  | runner
  | helper
  deriving DecidableEq

/-- A guest that runs may go on running until its stop is confirmed or the machine restarts. -/
inductive Guest where
  | off
  | running
  | stopped
  deriving DecidableEq

/-- How far the helper of a workspace is. -/
inductive Helper where
  | spawned
  | locked
  | started
  | stopped
  /-- The stop proof is there, or is being written. -/
  | proving
  deriving DecidableEq

/-- The machine: the work root, the boot session, and for every workspace its use lock, guest and helper. -/
structure Host where
  files : FileSystem
  boot : Bytes
  calls : Nat
  useLock : Bytes → Option Holder
  guest : Bytes → Guest
  helper : Bytes → Option Helper
  /-- The boot sessions so far, and the names that were used for workspaces. -/
  boots : List Bytes
  made : List Bytes

/-- What the runner is given: which calls are refused, the random bytes and the VM base. -/
structure World where
  refuses : Nat → Bool
  random : Nat → Fin 16 → UInt8
  base : Bytes → Option Bytes

abbrev Call := Prog Host String

namespace World
variable (world : World)

/-- Whether the next call, or a check that goes with it, is refused. -/
def refused : Call Bool := do
  let count ← Prog.gets Host.calls
  Prog.modify fun host => { host with calls := count + 1 }
  return world.refuses count

def checked (error : String) : Call Unit := do
  if ← world.refused then Prog.throw error else return ()

def requireDirectory (path : Path) (error : String) : Call Unit := do
  world.checked error
  Prog.reads fun host => rejectIf (host.files.get path ≠ some .directory) error

def unlink (path : Path) (error : String) : Call Unit := do
  world.checked error
  Prog.reads fun host => rejectIf (host.files.get path = none ∨ host.files.get path = some .directory) error
  Prog.modify fun host => { host with files := unlinked host.files path }

def rmdir (path : Path) (error : String) : Call Unit := do
  world.checked error
  Prog.modify fun host => { host with files := withoutDirectory host.files path }
  Prog.reads fun host => rejectIf (host.files.get path ≠ none) error

/-- A node where nothing may be, in a directory. -/
def create (path : Path) (node : Node) (error : String) : Call Unit := do
  world.checked error
  Prog.reads fun host =>
    rejectIf (host.files.get path ≠ none ∨ host.files.get path.dropLast ≠ some .directory) error
  Prog.modify fun host => { host with files := host.files.place path node }

/-- A small file: it is made empty, written and synced. -/
def marker (path : Path) (value : Bytes) (error : String) : Call Unit := do
  world.create path (.file []) error
  world.checked error
  Prog.modify fun host => { host with files := host.files.place path (.file value) }
  world.checked error

end World

/-- `job-` and 16 random bytes. -/
def uniqueName (bytes : Fin 16 → UInt8) : Bytes := ascii "job-" ++ hexEncode (List.ofFn bytes)

def isLowerHex (byte : UInt8) : Bool := byte ∈ ascii "0123456789abcdef"

def isJobName (name : Bytes) : Bool :=
  name.length == 36 && (ascii "job-").isPrefixOf name && (name.drop 4).all isLowerHex

def hyphen : UInt8 := '-'.toUInt8

def isHexDigit (byte : UInt8) : Bool :=
  isDigit byte || ('A'.toUInt8 ≤ byte && byte ≤ 'F'.toUInt8) || ('a'.toUInt8 ≤ byte && byte ≤ 'f'.toUInt8)

def lowered (byte : UInt8) : UInt8 :=
  if 'A'.toUInt8 ≤ byte ∧ byte ≤ 'F'.toUInt8 then byte - 'A'.toUInt8 + 'a'.toUInt8 else byte

/-- A UUID with its four hyphens. -/
def isBootSession (boot : Bytes) : Bool :=
  boot.length == 36 && (List.range 36).all fun i =>
    if i = 8 ∨ i = 13 ∨ i = 18 ∨ i = 23 then boot[i]? == some hyphen else (boot[i]?.map isHexDigit).getD false

def markerStart : Bytes := ascii "ckgit-macos-vm-v1\nboot="

def workspaceMarker (boot : Bytes) : Bytes := markerStart ++ boot ++ [newline]

def stoppedMarker : Bytes := ascii "ckgit-vm-stopped-v1\n"

/-- The boot session a marker names. -/
def parseMarker (value : Bytes) : Except String Bytes := do
  rejectIf (value.length ≠ 60) "refusing an unrecognized VM workspace marker"
  rejectIf (¬ markerStart <+: value ∨ value.getLast? ≠ some newline) "refusing an unrecognized VM workspace marker"
  let boot := (value.drop 23).take 36
  rejectIf (isBootSession boot = false) "refusing an unrecognized VM workspace boot session"
  return boot.map lowered

def markerOf (files : FileSystem) (name : Bytes) : Except String Bytes :=
  match files.get (markerPath name) with
  | some (.file value) => parseMarker value
  | _ => .error "refusing an unrecognized VM workspace marker"

section
variable (world : World)

def readMarker (name : Bytes) : Call Bytes := do
  world.checked "refusing an unrecognized VM workspace marker"
  Prog.reads fun host => markerOf host.files name

def validStopMarker (name : Bytes) : Call Bool := do
  if ← world.refused then return false
  else Prog.gets fun host => host.files.get (stoppedPath name) = some (.file stoppedMarker)

def validateRunnerLock : Call Unit := do
  world.checked "invalid VM runner lock file"
  Prog.reads fun host =>
    match host.files.get [runnerLock] with
    | some (.file _) => .ok ()
    | _ => .error "invalid VM runner lock file"

/-- One entry of a directory: what is preserved is passed over, a directory is cleared first. -/
def clearEntry (progress : Bool) (clear : Path → List Bytes → Nat → Call Nat) (dir : Path) (preserve : List Bytes)
    (entries : Nat) (name : Bytes) : Call Nat :=
  if name ∈ preserve then return entries
  else do
    Prog.ofExcept (rejectIf (entries + 1 > 1000000) "VM workspace entry limit exceeded")
    Prog.whenever (progress ∧ (entries + 1) % 128 = 0) (world.checked "cannot report progress")
    world.checked "cannot safely inspect VM workspace entry"
    match ← Prog.gets fun host => host.files.get (dir ++ [name]) with
    | none => Prog.throw "cannot safely inspect VM workspace entry"
    | some .directory =>
      world.checked "VM workspace directory changed, is not private, or crosses a mount"
      let entries ← clear (dir ++ [name]) [] (entries + 1)
      world.rmdir (dir ++ [name]) "cannot remove VM workspace directory"
      return entries
    | some _ =>
      world.unlink (dir ++ [name]) "cannot remove VM workspace entry"
      return entries + 1

/-- Removes what is in a directory, `levels` deep at most, and counts it. Symbolic links are not followed. -/
def clearDirectory (progress : Bool) : Nat → Path → List Bytes → Nat → Call Nat
  | 0, _, _, _ => Prog.throw "VM workspace nesting limit exceeded"
  | levels + 1, dir, preserve, entries => do
    world.checked "cannot inspect VM workspace"
    let names ← Prog.gets fun host => namesIn host.files dir
    Prog.accumulate names entries (clearEntry world progress (clearDirectory progress levels) dir preserve)

/-- Directories nest up to 64 deep below a workspace. -/
def kLevels : Nat := 65

/-- The caller holds the use lock and has seen that the guest stopped. The lock and the proof go last. -/
def clearStoppedWorkspace (progress : Bool) (name : Bytes) : Call Unit := do
  let entries ← clearDirectory world progress kLevels [name] [markerName, vmName] 0
  world.checked "cannot sync VM workspace cleanup"
  let _ ← clearDirectory world progress kLevels (vmPath name) [stoppedName, useLockName] entries
  world.checked "cannot finalize stopped VM cleanup"
  world.unlink (stoppedPath name) "cannot finalize stopped VM cleanup"
  world.unlink (useLockPath name) "cannot finalize stopped VM cleanup"
  world.checked "cannot finalize stopped VM cleanup"
  world.rmdir (vmPath name) "cannot finalize stopped VM cleanup"
  world.checked "cannot finalize stopped VM cleanup"

/-- `flock` of the use lock: one attempt. -/
def takeUseLock (name : Bytes) (error : String) : Call Unit := do
  world.checked error
  Prog.reads fun host =>
    match host.files.get (useLockPath name) with
    | some (.file _) => .ok ()
    | _ => .error error
  Prog.modify fun host =>
    if host.useLock name = none then { host with useLock := Function.update host.useLock name (some .runner) } else host
  Prog.reads fun host => rejectIf (host.useLock name ≠ some .runner) error
  world.checked error

/-- The descriptor of the use lock is closed. -/
def releaseUseLock (name : Bytes) : Call Unit :=
  Prog.modify fun host =>
    if host.useLock name = some .runner then { host with useLock := Function.update host.useLock name none } else host

/-- The marker goes, then the directory. -/
def removeWorkspace (name : Bytes) (error : String) : Call Unit := do
  world.checked error
  world.unlink (markerPath name) error
  world.checked error
  world.checked "VM workspace changed during recovery"
  world.rmdir [name] error
  world.checked error

/-- Another directory of this boot is cleared only under its use lock and a stop proof. -/
def reconcileWorkspace (current_boot name : Bytes) : Call Unit := do
  world.requireDirectory [name] "VM workspace directory changed, is not private, or crosses a mount"
  let boot ← readMarker world name
  if boot = current_boot then
    world.requireDirectory (vmPath name) "VM workspace directory changed, is not private, or crosses a mount"
    takeUseLock world name "VM work root contains a workspace from this boot whose VM state is unknown"
    let proved ← validStopMarker world name
    Prog.ofExcept (rejectIf (proved = false)
      "VM work root contains a workspace from this boot whose VM state is unknown")
    world.checked "VM workspace changed during recovery"
    clearStoppedWorkspace world false name
    removeWorkspace world name "cannot finalize previous-boot VM workspace cleanup"
    releaseUseLock name
  else
    world.checked "VM workspace changed during recovery"
    let _ ← clearDirectory world false kLevels [name] [markerName] 0
    removeWorkspace world name "cannot finalize previous-boot VM workspace cleanup"

def reconcileEntry (current_boot name : Bytes) : Call Unit := do
  if name = runnerLock then validateRunnerLock world
  else
    Prog.ofExcept (rejectIf (isJobName name = false) "VM work root contains unknown data")
    reconcileWorkspace world current_boot name

def reconcilePreviousBoot (current_boot : Bytes) : Call Unit := do
  world.checked "cannot inspect VM work root"
  let names ← Prog.gets fun host => namesIn host.files []
  Prog.forEach names (reconcileEntry world current_boot)
  let left ← Prog.gets fun host => namesIn host.files []
  Prog.forEach left fun name =>
    if name = runnerLock then validateRunnerLock world
    else Prog.throw "VM work root still contains unreconciled data"

def components : List Bytes :=
  [ascii "Disk.img", ascii "AuxiliaryStorage", ascii "MachineIdentifier", ascii "HardwareModel"]

/-- APFS clones one part of the base. -/
def cloneComponent (name component : Bytes) : Call Unit := do
  world.checked "VM base is missing a regular Apple VM image component"
  match world.base component with
  | none => Prog.throw "VM base is missing a regular Apple VM image component"
  | some content =>
    world.create (vmPath name ++ [component]) (.file content)
      "APFS could not clone the VM base; no full-copy fallback is permitted"
    world.checked "cannot protect cloned VM image"

def fillWorkspace (name boot : Bytes) : Call Unit := do
  world.requireDirectory [name] "VM workspace directory changed, is not private, or crosses a mount"
  world.marker (markerPath name) (workspaceMarker boot) "cannot write VM workspace ownership marker"
  world.create (vmPath name) .directory "cannot create VM workspace directories"
  world.create [name, exchangeName] .directory "cannot create VM workspace directories"
  world.requireDirectory (vmPath name) "VM workspace directory changed, is not private, or crosses a mount"
  Prog.forEach components (cloneComponent world name)
  world.marker (vmPath name ++ [disposableName]) (ascii "ckgit-macos-vm-v1\n") "cannot write VM workspace ownership marker"
  world.marker (useLockPath name) (ascii "ckgit-vm-use-v1\n") "cannot write VM workspace ownership marker"
  world.checked "cannot sync VM workspace"

/-- What was cloned so far is removed. No VM has started. -/
def clearPartial (name : Bytes) : Call Unit := do
  let _ ← clearDirectory world false kLevels [name] [markerName] 0
  world.checked "cannot sync partial VM workspace cleanup"
  let there ← Prog.gets fun host => host.files.get (markerPath name)
  if there = none then world.checked "cannot inspect partial VM workspace marker"
  else
    world.unlink (markerPath name) "cannot finalize partial VM workspace cleanup"
    world.checked "cannot finalize partial VM workspace cleanup"

def discard (name : Bytes) (opened : Bool) (failure : String) : Call (Option (Bytes × Bytes)) := do
  let cleared ← (Prog.whenever (opened = true) (clearPartial world name)).attempt
  let removed ← (world.rmdir [name] "cannot remove VM workspace directory").attempt
  Prog.throw (if cleared.isOk ∧ removed.isOk then failure
    else "VM workspace creation failed and its partial files could not be removed; refusing new jobs")

/-- The directory of a new workspace; its name is used from here on. -/
def makeWorkspace (name : Bytes) : Call Unit := do
  world.checked "cannot create VM workspace"
  Prog.reads fun host => rejectIf (host.files.get [name] ≠ none) "cannot create VM workspace"
  Prog.modify fun host => { host with files := host.files.place [name] .directory, made := name :: host.made }

/-- The constructor, once it has the lock on the work root. It returns the name of the workspace and the
boot session. -/
def createWorkspace : Call (Option (Bytes × Bytes)) := do
  world.checked "cannot exclusively lock VM work root"
  let boot ← Prog.gets Host.boot
  world.checked "cannot identify the current macOS boot session"
  reconcilePreviousBoot world boot
  world.checked "VM base must be private and on the same APFS volume as the work root"
  world.checked "VM base is in use by setup; stop setup before starting jobs"
  let name ← Prog.gets fun host => uniqueName (world.random host.calls)
  makeWorkspace world name
  match ← (world.checked "VM workspace directory changed, is not private, or crosses a mount").attempt with
  | .error failure => discard world name false failure
  | .ok _ =>
    match ← (fillWorkspace world name boot).attempt with
    | .error failure => discard world name true failure
    | .ok _ => return some (name, boot)

/-- The proof is written under the lock, unless the helper did. -/
def proveStopped (name : Bytes) : Call Unit := do
  world.checked "cannot inspect VM stop proof"
  let there ← Prog.gets fun host => host.files.get (stoppedPath name)
  Prog.whenever (there = none)
    (world.marker (stoppedPath name) stoppedMarker "cannot persist VM stop proof before cleanup")

def removeAfterConfirmedStop (name boot : Bytes) : Call (Option (Bytes × Bytes)) := do
  world.checked "VM work volume or root directory changed"
  world.requireDirectory [name] "VM workspace directory was replaced"
  let marked ← readMarker world name
  Prog.ofExcept (rejectIf (marked ≠ boot) "VM workspace boot session changed")
  world.requireDirectory (vmPath name) "VM workspace directory changed, is not private, or crosses a mount"
  takeUseLock world name "VM helper still holds the workspace or its lock is invalid"
  proveStopped world name
  let proved ← validStopMarker world name
  Prog.ofExcept (rejectIf (proved = false) "invalid VM stop proof")
  world.checked "cannot report progress"
  clearStoppedWorkspace world true name
  removeWorkspace world name "cannot finalize VM workspace cleanup"
  releaseUseLock name
  return none

end
end CkGit.Workspace
