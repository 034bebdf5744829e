import CkGit.Config.Values

/-!
loadRunnerConfig and renderRunnerConfig (src/common/runner_config.cpp) as they are
on POSIX. Two paths are equal when their names are, as std::filesystem::path has
it; that the file is a regular one is not modelled.
-/
namespace CkGit.Config
open CkGit.Base CkGit.Ci

def kMaximumCiClaimWaitSeconds : Nat := 120
def kCiPrimaryRunnerName : Bytes := ascii "primary"

def semicolon : UInt8 := ';'.toUInt8

/-- The names between slashes, the last one empty where a slash follows a name. -/
def namesOf (pieces : List Bytes) : List Bytes :=
  let names := pieces.filter (!·.isEmpty)
  if names ≠ [] ∧ pieces.getLast? = some [] then names ++ [[]] else names

def pathNames (path : Bytes) : List Bytes := namesOf (path.splitOn slash)

/-- What operator== compares. -/
def pathKey (path : Bytes) : Bool × List Bytes := (isAbsolute path, pathNames path)

/-- generic_u8string: single slashes between the names. -/
def genericText (path : Bytes) : Bytes :=
  (if isAbsolute path then [slash] else []) ++ [slash].intercalate (pathNames path)

def defaultSsh : Bytes := ascii "/usr/bin/ssh"
def defaultToolchainPaths : List Bytes := [ascii "bin"]

structure RunnerConfig where
  server : Bytes := []
  name : Bytes := []
  build_root : Bytes := []
  identity : Option Bytes := none
  known_hosts : Option Bytes := none
  ssh_program : Bytes := defaultSsh
  claim_wait_seconds : Nat := 60
  cache_root : Option Bytes := none
  allow_network : Bool := true
  timeout_seconds : Option Nat := none
  allow_degraded : Bool := false
  toolchain_root : Option Bytes := none
  toolchain_paths : List Bytes := defaultToolchainPaths
  /-- In the order of the names. -/
  toolchain_environment : List (Bytes × Bytes) := []
  macos_native_socket : Option Bytes := none
  macos_vm_base : Option Bytes := none
  macos_vm_work_root : Option Bytes := none
  macos_vm_min_free_gib : Nat := 20
  deriving DecidableEq, Repr

namespace Runner

inductive PathKey where
  | ci_build_root | identity | known_hosts | ssh_program | ci_cache_root | ci_macos_native_socket | ci_macos_vm_base
  | ci_macos_vm_work_root | ci_toolchain_root
  deriving DecidableEq

inductive Key where
  | server
  | name
  | path (key : PathKey)
  | ci_macos_vm_min_free_gib
  | ci_toolchain_paths
  | claim_wait_seconds
  | ci_timeout_seconds
  | ci_allow_network
  | ci_allow_degraded
  | ci_toolchain_env (name : Bytes)
  deriving DecidableEq

def keys : List (String × Key) :=
  [("server", .server), ("name", .name), ("ci_build_root", .path .ci_build_root), ("identity", .path .identity),
   ("known_hosts", .path .known_hosts), ("ssh_program", .path .ssh_program), ("ci_cache_root", .path .ci_cache_root),
   ("ci_macos_native_socket", .path .ci_macos_native_socket), ("ci_macos_vm_base", .path .ci_macos_vm_base),
   ("ci_macos_vm_work_root", .path .ci_macos_vm_work_root), ("ci_macos_vm_min_free_gib", .ci_macos_vm_min_free_gib),
   ("ci_toolchain_root", .path .ci_toolchain_root), ("ci_toolchain_paths", .ci_toolchain_paths),
   ("claim_wait_seconds", .claim_wait_seconds), ("ci_timeout_seconds", .ci_timeout_seconds),
   ("ci_allow_network", .ci_allow_network), ("ci_allow_degraded", .ci_allow_degraded)]

def environmentPrefix : Bytes := ascii "ci_toolchain_env."

/-- No fixed key starts as those of the environment do. -/
def keyOf (key : Bytes) : Option Key :=
  match keys.find? fun entry => ascii entry.1 == key with
  | some entry => some entry.2
  | none => if environmentPrefix.isPrefixOf key then some (.ci_toolchain_env (key.drop environmentPrefix.length)) else none

def setPath (config : RunnerConfig) (key : PathKey) (value : Bytes) : RunnerConfig :=
  match key with
  | .ci_build_root => { config with build_root := value }
  | .identity => { config with identity := some value }
  | .known_hosts => { config with known_hosts := some value }
  | .ssh_program => { config with ssh_program := value }
  | .ci_cache_root => { config with cache_root := some value }
  | .ci_macos_native_socket => { config with macos_native_socket := some value }
  | .ci_macos_vm_base => { config with macos_vm_base := some value }
  | .ci_macos_vm_work_root => { config with macos_vm_work_root := some value }
  | .ci_toolchain_root => { config with toolchain_root := some value }

end Runner

def isShellSafe (value : Bytes) : Bool :=
  !value.isEmpty && value.length ≤ 1024 && value.all fun c => isAlnum c || (ascii "/._-@:+=").contains c

def splitRunnerLine (line : Bytes) : Except Refusal (Option Setting) := do
  let line := if line.getLast? = some carriage then line.dropLast else line
  rejectIf (line.length > kMaximumLineBytes) (.configError "line too long")
  if line = [] ∨ line.head? = some hash then return none
  match cut line with
  | none => throw (.configError "expected key=value")
  | some setting => return some setting

def absolutePath (value : Bytes) : Except Refusal Bytes := do
  let refused := .configError "expected an absolute path"
  rejectIf (value = []) refused
  let path ← pathFromUtf8 value
  rejectIf (!isAbsolute path ∨ value.length > 1024 ∨ hasControlCharacter value) refused
  return path

def readBoolean (value : Bytes) : Except Refusal Bool := do
  rejectIf (value ≠ ascii "true" ∧ value ≠ ascii "false") (.configError "expected true or false")
  return value = ascii "true"

def readInteger (value : Bytes) (low high : Nat) : Except Refusal Nat :=
  let refused := .configError ("expected a number from " ++ toString low ++ " to " ++ toString high)
  match parseDecimal (2 ^ 32 - 1) value with
  | none => throw refused
  | some parsed => do
    rejectIf (parsed < low ∨ parsed > high) refused
    return parsed

def addToolchainPath (paths : List Bytes) (part : Bytes) : Except Refusal (List Bytes) := do
  let relative ← pathFromUtf8 part
  rejectIf (part = [] ∨ ':'.toUInt8 ∈ part ∨ '\\'.toUInt8 ∈ part ∨ hasControlCharacter part ∨ isAbsolute relative
    ∨ ascii ".." ∈ pathNames relative) (.configError "toolchain paths must be relative slash-separated directories")
  let paths := paths ++ [relative]
  rejectIf (paths.length > 32) (.configError "too many toolchain directories")
  return paths

def isEnvironmentName (name : Bytes) : Bool :=
  !name.isEmpty && name.length ≤ 128 && name.all (fun c => isUpperCase c || isDigit c || c == '_'.toUInt8)
    && !name.head?.any isDigit

/-- operator[] of std::map and an assignment. -/
def assign (name value : Bytes) (entries : List (Bytes × Bytes)) : List (Bytes × Bytes) :=
  match entries with
  | [] => [(name, value)]
  | (other, kept) :: rest =>
    if name = other then (name, value) :: rest
    else if name < other then (name, value) :: (other, kept) :: rest
    else (other, kept) :: assign name value rest

def storeRunnerField (config : RunnerConfig) (key : Runner.Key) (value : Bytes) : Except Refusal RunnerConfig :=
  match key with
  | .server => do
    rejectIf (!isValidSshCloneTarget value) (.configError "server must be user@host")
    return { config with server := value }
  | .name => do
    rejectIf (!isValidClientId value ∨ value = kCiPrimaryRunnerName) (.configError "invalid runner name")
    return { config with name := value }
  | .path key => return Runner.setPath config key (← absolutePath value)
  | .ci_macos_vm_min_free_gib => return { config with macos_vm_min_free_gib := ← readInteger value 1 65536 }
  | .ci_toolchain_paths =>
    return { config with toolchain_paths := ← (value.splitOn semicolon).foldlM addToolchainPath [] }
  | .ci_toolchain_env name => do
    rejectIf (!isEnvironmentName name ∨ hasControlCharacter value)
      (.configError "invalid uppercase toolchain environment assignment")
    return { config with toolchain_environment := assign name value config.toolchain_environment }
  | .claim_wait_seconds =>
    return { config with claim_wait_seconds := ← readInteger value 1 kMaximumCiClaimWaitSeconds }
  | .ci_timeout_seconds => return { config with timeout_seconds := some (← readInteger value 1 86400) }
  | .ci_allow_network => return { config with allow_network := ← readBoolean value }
  | .ci_allow_degraded => return { config with allow_degraded := ← readBoolean value }

def runnerField (config : RunnerConfig) (setting : Setting) : Except Refusal RunnerConfig :=
  match Runner.keyOf setting.1 with
  | none => throw (.configError "unknown field")
  | some key => storeRunnerField config key setting.2

def runnerFormat : Format RunnerConfig where
  split := splitRunnerLine
  repeats := fun _ => false
  duplicate := "duplicate field"
  field := runnerField

def hasDefaultToolchainPaths (config : RunnerConfig) : Bool :=
  config.toolchain_paths.map pathKey == defaultToolchainPaths.map pathKey

/-- What the fields say together. -/
def checkRunnerConfig (config : RunnerConfig) (has_schema : Bool) (seen : List Bytes) : Except LoadError Unit := do
  rejectIf (!has_schema ∨ config.server = [] ∨ config.name = [] ∨ config.build_root = [])
    (.unusable "runner configuration needs schema_version, server, name and ci_build_root")
  rejectIf (config.macos_native_socket.isSome ∧ (config.macos_vm_base.isSome ∨ config.macos_vm_work_root.isSome
      ∨ config.allow_network ∨ config.allow_degraded ∨ config.cache_root.isSome))
    (.unusable "native macOS requires offline execution, no degraded mode, no shared cache and no VM configuration")
  rejectIf (config.macos_vm_base.isSome ≠ config.macos_vm_work_root.isSome
      ∨ (ascii "ci_macos_vm_min_free_gib" ∈ seen ∧ config.macos_vm_base.isNone))
    (.unusable "macOS VM configuration requires both a base and a work root")
  rejectIf (config.macos_vm_base.isSome ∧ (config.allow_degraded ∨ config.allow_network ∨ config.cache_root.isSome))
    (.unusable "macOS VM configuration requires ci_allow_network=false, no degraded mode and no shared cache")
  rejectIf (config.macos_vm_base.isSome ∧ (config.toolchain_root.isSome ∨ config.toolchain_environment ≠ []
      ∨ !hasDefaultToolchainPaths config))
    (.unusable "macOS VM jobs use tools installed in the guest; remove Windows ci_toolchain settings")
  rejectIf (!isShellSafe config.build_root ∨ !isShellSafe config.ssh_program)
    (.unusable "runner paths may use only [A-Za-z0-9/._-]")

def loadRunnerConfig (text : Bytes) : Except LoadError RunnerConfig := do
  rejectIf (text.length > kMaximumConfigBytes) (.unusable "runner configuration must be a small regular file")
  let loading ← runnerFormat.readLines 1 { config := {} } (fileLines text)
  checkRunnerConfig loading.config loading.has_schema loading.seen
  return loading.config

def runnerSlots (config : RunnerConfig) : List Slot :=
  [(ascii "server", some config.server),
   (ascii "name", some config.name),
   (ascii "ci_build_root", some config.build_root),
   (ascii "identity", config.identity),
   (ascii "known_hosts", config.known_hosts),
   (ascii "ssh_program", if pathKey config.ssh_program = pathKey defaultSsh then none else some config.ssh_program),
   (ascii "claim_wait_seconds",
     if config.claim_wait_seconds = 60 then none else some (decimal config.claim_wait_seconds)),
   (ascii "ci_cache_root", config.cache_root),
   (ascii "ci_allow_network", if config.allow_network then none else some (ascii "false")),
   (ascii "ci_timeout_seconds", config.timeout_seconds.map decimal),
   (ascii "ci_allow_degraded", if config.allow_degraded then some (ascii "true") else none),
   (ascii "ci_toolchain_root", config.toolchain_root),
   (ascii "ci_macos_native_socket", config.macos_native_socket),
   (ascii "ci_macos_vm_base", config.macos_vm_base),
   (ascii "ci_macos_vm_work_root", config.macos_vm_work_root),
   (ascii "ci_macos_vm_min_free_gib",
     if config.macos_vm_base.isSome ∧ config.macos_vm_min_free_gib ≠ 20 then some (decimal config.macos_vm_min_free_gib)
     else none),
   (ascii "ci_toolchain_paths",
     if hasDefaultToolchainPaths config then none
     else some ([semicolon].intercalate (config.toolchain_paths.map genericText)))]

def environmentSlots (entries : List (Bytes × Bytes)) : List Slot :=
  entries.map fun entry => (Runner.environmentPrefix ++ entry.1, some entry.2)

def renderRunnerConfig (config : RunnerConfig) : Bytes :=
  rendered (written (runnerSlots config ++ environmentSlots config.toolchain_environment))

end CkGit.Config
