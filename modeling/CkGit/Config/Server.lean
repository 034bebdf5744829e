import CkGit.Base.Utf8
import CkGit.Config.Values

/-!
loadServerConfig and renderServerConfig (src/common/server_config.cpp). A path is
its bytes, as on POSIX; that the file is a regular one is not modelled.
-/
namespace CkGit.Config
open CkGit.Base CkGit.Ci

def kMaximumPathBytes : Nat := 1024

/-- The server configuration of src/common/config.cpp; what is not set keeps its default elsewhere. -/
structure ServerConfig where
  repo_root : Bytes := []
  control_socket : Bytes := []
  state_root : Option Bytes := none
  hook_directory : Option Bytes := none
  http_port : Option Nat := none
  ssh_clone_target : Option Bytes := none
  ci_build_root : Option Bytes := none
  ci_cache_root : Option Bytes := none
  ci_timeout_seconds : Option Nat := none
  ci_max_log_bytes : Option Nat := none
  ci_poll_seconds : Option Nat := none
  ci_rescan_seconds : Option Nat := none
  ci_lease_seconds : Option Nat := none
  ci_max_attempts : Option Nat := none
  ci_claim_delay_ms : Option Nat := none
  ci_runner_labels : List Bytes := []
  ci_allow_network : Bool := false
  ci_artifact_retention_days : Option Nat := none
  ci_artifact_max_retention_days : Option Nat := none
  ci_artifact_max_bytes : Option Nat := none
  ci_artifact_max_project_bytes : Option Nat := none
  ci_artifact_max_total_bytes : Option Nat := none
  ci_runs_keep : Option Nat := none
  ci_cleanup_interval_seconds : Option Nat := none
  ci_artifact_keep_latest : Option Bool := none
  pages_root : Option Bytes := none
  pages_http_port : Option Nat := none
  pages_keep_versions : Option Nat := none
  pages_public_url : Option Bytes := none
  deriving DecidableEq, Repr

namespace Server

/-- The keys whose value is an absolute path. -/
inductive PathKey where
  | repo_root | control_socket | state_root | hook_directory | ci_build_root | ci_cache_root | pages_root
  deriving DecidableEq

/-- The keys whose value is a bounded number. -/
inductive NumberKey where
  | ci_timeout_seconds | ci_poll_seconds | ci_max_log_bytes | ci_rescan_seconds | ci_lease_seconds
  | ci_max_attempts | ci_claim_delay_ms | ci_artifact_retention_days | ci_artifact_max_retention_days
  | ci_artifact_max_bytes | ci_artifact_max_project_bytes | ci_artifact_max_total_bytes | ci_runs_keep
  | ci_cleanup_interval_seconds | pages_keep_versions
  deriving DecidableEq

/-- The keys whose value is a port. -/
inductive PortKey where
  | http_port | pages_http_port
  deriving DecidableEq

/-- The keys of the file besides its schema. -/
inductive Key where
  | path (key : PathKey)
  | number (key : NumberKey)
  | port (key : PortKey)
  | ci_allow_network
  | ci_artifact_keep_latest
  | ci_runner_labels
  | ssh_clone_target
  | pages_public_url
  deriving DecidableEq

/-- Each key as the file spells it. -/
def keys : List (String × Key) :=
  [("repo_root", .path .repo_root), ("control_socket", .path .control_socket), ("state_root", .path .state_root),
   ("hook_directory", .path .hook_directory), ("ci_build_root", .path .ci_build_root),
   ("ci_cache_root", .path .ci_cache_root), ("pages_root", .path .pages_root),
   ("ci_timeout_seconds", .number .ci_timeout_seconds), ("ci_poll_seconds", .number .ci_poll_seconds),
   ("ci_max_log_bytes", .number .ci_max_log_bytes), ("ci_rescan_seconds", .number .ci_rescan_seconds),
   ("ci_lease_seconds", .number .ci_lease_seconds), ("ci_max_attempts", .number .ci_max_attempts),
   ("ci_claim_delay_ms", .number .ci_claim_delay_ms),
   ("ci_artifact_retention_days", .number .ci_artifact_retention_days),
   ("ci_artifact_max_retention_days", .number .ci_artifact_max_retention_days),
   ("ci_artifact_max_bytes", .number .ci_artifact_max_bytes),
   ("ci_artifact_max_project_bytes", .number .ci_artifact_max_project_bytes),
   ("ci_artifact_max_total_bytes", .number .ci_artifact_max_total_bytes), ("ci_runs_keep", .number .ci_runs_keep),
   ("ci_cleanup_interval_seconds", .number .ci_cleanup_interval_seconds),
   ("pages_keep_versions", .number .pages_keep_versions), ("ci_allow_network", .ci_allow_network),
   ("ci_artifact_keep_latest", .ci_artifact_keep_latest), ("ci_runner_labels", .ci_runner_labels),
   ("ssh_clone_target", .ssh_clone_target), ("pages_public_url", .pages_public_url), ("http_port", .port .http_port),
   ("pages_http_port", .port .pages_http_port)]

def keyOf (key : Bytes) : Option Key := (keys.find? fun entry => ascii entry.1 == key).map Prod.snd

def setPath (config : ServerConfig) (key : PathKey) (value : Bytes) : ServerConfig :=
  match key with
  | .repo_root => { config with repo_root := value }
  | .control_socket => { config with control_socket := value }
  | .state_root => { config with state_root := some value }
  | .hook_directory => { config with hook_directory := some value }
  | .ci_build_root => { config with ci_build_root := some value }
  | .ci_cache_root => { config with ci_cache_root := some value }
  | .pages_root => { config with pages_root := some value }

/-- A number in its field. -/
def setNumber (config : ServerConfig) (key : NumberKey) (number : Nat) : ServerConfig :=
  match key with
  | .ci_timeout_seconds => { config with ci_timeout_seconds := some number }
  | .ci_poll_seconds => { config with ci_poll_seconds := some number }
  | .ci_max_log_bytes => { config with ci_max_log_bytes := some number }
  | .ci_rescan_seconds => { config with ci_rescan_seconds := some number }
  | .ci_lease_seconds => { config with ci_lease_seconds := some number }
  | .ci_max_attempts => { config with ci_max_attempts := some number }
  | .ci_claim_delay_ms => { config with ci_claim_delay_ms := some number }
  | .ci_artifact_retention_days => { config with ci_artifact_retention_days := some number }
  | .ci_artifact_max_retention_days => { config with ci_artifact_max_retention_days := some number }
  | .ci_artifact_max_bytes => { config with ci_artifact_max_bytes := some number }
  | .ci_artifact_max_project_bytes => { config with ci_artifact_max_project_bytes := some number }
  | .ci_artifact_max_total_bytes => { config with ci_artifact_max_total_bytes := some number }
  | .ci_runs_keep => { config with ci_runs_keep := some number }
  | .ci_cleanup_interval_seconds => { config with ci_cleanup_interval_seconds := some number }
  | .pages_keep_versions => { config with pages_keep_versions := some number }

def setPort (config : ServerConfig) (key : PortKey) (port : Nat) : ServerConfig :=
  match key with
  | .http_port => { config with http_port := some port }
  | .pages_http_port => { config with pages_http_port := some port }

/-- Why a number is refused. -/
def refusal (key : NumberKey) (number : Nat) : Option String :=
  let checked := fun (allowed : Bool) message => if allowed then none else some message
  match key with
  | .ci_timeout_seconds => checked (1 ≤ number && number ≤ 86400) "ci_timeout_seconds must be 1 to 86400"
  | .ci_poll_seconds => checked (1 ≤ number && number ≤ 3600) "ci_poll_seconds must be 1 to 3600"
  | .ci_rescan_seconds => checked (10 ≤ number && number ≤ 3600) "ci_rescan_seconds must be 10 to 3600"
  | .ci_lease_seconds => checked (10 ≤ number && number ≤ 3600) "ci_lease_seconds must be 10 to 3600"
  | .ci_claim_delay_ms => checked (number ≤ 60000) "ci_claim_delay_ms must be 0 to 60000"
  | .ci_max_attempts => checked (1 ≤ number && number ≤ 10) "ci_max_attempts must be 1 to 10"
  | .ci_max_log_bytes =>
    checked (1024 ≤ number && number ≤ 1073741824) "ci_max_log_bytes must be 1024 to 1073741824"
  | .ci_artifact_retention_days => checked (1 ≤ number && number ≤ 3650) "retention days must be 1 to 3650"
  | .ci_artifact_max_retention_days => checked (1 ≤ number && number ≤ 3650) "retention days must be 1 to 3650"
  | .ci_artifact_max_bytes => checked (1024 ≤ number) "ci_artifact_max_bytes must be at least 1024"
  | .ci_artifact_max_project_bytes => none
  | .ci_artifact_max_total_bytes => none
  | .ci_runs_keep => checked (number ≤ 1000000) "ci_runs_keep must be 0 to 1000000"
  | .pages_keep_versions => checked (1 ≤ number && number ≤ 1000) "pages_keep_versions must be 1 to 1000"
  | .ci_cleanup_interval_seconds =>
    checked (60 ≤ number && number ≤ 86400) "ci_cleanup_interval_seconds must be 60 to 86400"

def portMessage : PortKey → String
  | .http_port => "http_port must be 0 to 65535"
  | .pages_http_port => "pages_http_port must be 0 to 65535"

end Server

/-- An absolute path of bounded length. -/
def isAbsoluteConfiguredPath (value : Bytes) : Bool :=
  !value.isEmpty && value.length ≤ kMaximumPathBytes && isAbsolute value && isValidUtf8 value
    && !hasControlCharacter value

/-- An http or https URL without spaces, quotes, angle brackets or backslashes. -/
def isValidPublicUrl (value : Bytes) : Bool :=
  8 ≤ value.length && value.length ≤ 512
    && ((ascii "http://").isPrefixOf value || (ascii "https://").isPrefixOf value)
    && value.all fun byte => byte > 0x20 && byte != '"'.toUInt8 && byte != '\''.toUInt8 && byte != '<'.toUInt8
      && byte != '>'.toUInt8 && byte != 0x60 && byte != '\\'.toUInt8

/-- A line as a setting; empty lines and comments are none. -/
def splitServerLine (line : Bytes) : Except Refusal (Option Setting) := do
  rejectIf (line.length > kMaximumLineBytes ∨ line.getLast? = some carriage)
    (.configError "line is too long or uses CRLF")
  if line = [] ∨ line.head? = some hash then return none
  match cut line with
  | none => throw (.configError "expected key=value")
  | some (key, value) =>
    rejectIf (hasControlCharacter key ∨ hasControlCharacter value ∨ hasOuterWhitespace key ∨ hasOuterWhitespace value
      ∨ equals ∈ key) (.configError "keys and values may not contain control or outer whitespace")
    return some (key, value)

open Server in
/-- What a known key does to the configuration. -/
def storeServerField (config : ServerConfig) (key : Key) (value : Bytes) : Except Refusal ServerConfig :=
  match key with
  | .path key => do
    rejectIf (!isAbsoluteConfiguredPath value ∨ equals ∈ value) (.configError "expected an absolute path without '='")
    return setPath config key value
  | .number key =>
    match parseDecimal (2 ^ 64 - 1) value with
    | none => throw (.configError "expected a non-negative integer")
    | some number =>
      match refusal key number with
      | some message => throw (.configError message)
      | none => return setNumber config key number
  | .ci_allow_network => do
    rejectIf (value ≠ ascii "true" ∧ value ≠ ascii "false") (.configError "ci_allow_network must be true or false")
    return { config with ci_allow_network := value = ascii "true" }
  | .ci_artifact_keep_latest => do
    rejectIf (value ≠ ascii "true" ∧ value ≠ ascii "false")
      (.configError "ci_artifact_keep_latest must be true or false")
    return { config with ci_artifact_keep_latest := some (value = ascii "true") }
  | .ci_runner_labels =>
    match parseCiLabelList value with
    | none => throw (.configError
        "ci_runner_labels must be comma-separated labels of lowercase letters, digits, '.', '_', '-'")
    | some labels => return { config with ci_runner_labels := labels }
  | .ssh_clone_target => do
    rejectIf (!isValidSshCloneTarget value)
      (.configError "ssh_clone_target must be user@host; use an SSH alias for custom ports or IPv6")
    return { config with ssh_clone_target := some value }
  | .pages_public_url => do
    rejectIf (!isValidPublicUrl value)
      (.configError "pages_public_url must be an http(s):// URL without spaces or control characters")
    return { config with pages_public_url := some value }
  | .port key =>
    match parseDecimal (2 ^ 32 - 1) value with
    | none => throw (.configError (portMessage key))
    | some port => do
      rejectIf (value.length > 5 ∨ port > 65535) (.configError (portMessage key))
      return setPort config key port

/-- One setting of the file; an unknown key is refused. -/
def serverField (config : ServerConfig) (setting : Setting) : Except Refusal ServerConfig :=
  match Server.keyOf setting.1 with
  | none => throw (.configError "unknown field")
  | some key => storeServerField config key setting.2

def serverFormat : Format ServerConfig where
  split := splitServerLine
  repeats := fun _ => false
  duplicate := "duplicate field"
  field := serverField

/-- The text of a file as a configuration. -/
def loadServerConfig (text : Bytes) : Except LoadError ServerConfig := do
  rejectIf (text.length > kMaximumConfigBytes) (.unusable "server configuration is too large or unavailable")
  let loading ← serverFormat.readLines 1 { config := {} } (fileLines text)
  rejectIf (!loading.has_schema ∨ loading.config.repo_root = [] ∨ loading.config.control_socket = [])
    (.unusable "server configuration is missing schema_version, repo_root, or control_socket")
  return loading.config

/-- A truth value as the file writes it. -/
def boolean (value : Bool) : Bytes := if value then ascii "true" else ascii "false"

/-- The settings in the order they are written. -/
def serverSlots (config : ServerConfig) : List Slot :=
  [(ascii "repo_root", some config.repo_root),
   (ascii "control_socket", some config.control_socket),
   (ascii "state_root", config.state_root),
   (ascii "hook_directory", config.hook_directory),
   (ascii "http_port", config.http_port.map decimal),
   (ascii "ssh_clone_target", config.ssh_clone_target),
   (ascii "ci_build_root", config.ci_build_root),
   (ascii "ci_cache_root", config.ci_cache_root),
   (ascii "ci_timeout_seconds", config.ci_timeout_seconds.map decimal),
   (ascii "ci_max_log_bytes", config.ci_max_log_bytes.map decimal),
   (ascii "ci_poll_seconds", config.ci_poll_seconds.map decimal),
   (ascii "ci_rescan_seconds", config.ci_rescan_seconds.map decimal),
   (ascii "ci_lease_seconds", config.ci_lease_seconds.map decimal),
   (ascii "ci_claim_delay_ms", config.ci_claim_delay_ms.map decimal),
   (ascii "ci_runner_labels",
     if config.ci_runner_labels = [] then none else some (formatCiLabelList config.ci_runner_labels)),
   (ascii "ci_max_attempts", config.ci_max_attempts.map decimal),
   (ascii "ci_allow_network", if config.ci_allow_network then some (ascii "true") else none),
   (ascii "ci_artifact_retention_days", config.ci_artifact_retention_days.map decimal),
   (ascii "ci_artifact_max_retention_days", config.ci_artifact_max_retention_days.map decimal),
   (ascii "ci_artifact_max_bytes", config.ci_artifact_max_bytes.map decimal),
   (ascii "ci_artifact_max_project_bytes", config.ci_artifact_max_project_bytes.map decimal),
   (ascii "ci_artifact_max_total_bytes", config.ci_artifact_max_total_bytes.map decimal),
   (ascii "ci_runs_keep", config.ci_runs_keep.map decimal),
   (ascii "ci_cleanup_interval_seconds", config.ci_cleanup_interval_seconds.map decimal),
   (ascii "ci_artifact_keep_latest", config.ci_artifact_keep_latest.map boolean),
   (ascii "pages_root", config.pages_root),
   (ascii "pages_http_port", config.pages_http_port.map decimal),
   (ascii "pages_public_url", config.pages_public_url),
   (ascii "pages_keep_versions", config.pages_keep_versions.map decimal)]

/-- The text of the file: the settings that are set, each on its line. -/
def renderServerConfig (config : ServerConfig) : Bytes := rendered (written (serverSlots config))

end CkGit.Config
