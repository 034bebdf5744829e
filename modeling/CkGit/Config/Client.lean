import CkGit.Config.Values

/-!
loadClientConfig and renderClientConfig (src/common/client_config.cpp). The
directory of the file is an input; that the file is a regular one is not modelled.
-/
namespace CkGit.Config
open CkGit.Base CkGit.Ci

def kMaximumListEntries : Nat := 64

/-- The client configuration of src/common/config.cpp: empty fields are not set. -/
structure ClientConfig where
  schema_version : UInt32 := 1
  client_id : Bytes := []
  display_name : Bytes := []
  server : Bytes := []
  remote_name : Bytes := []
  scan_roots : List Bytes := []
  exclusions : List Bytes := []
  expose_full_paths : Bool := false
  config_directory : Bytes := []
  web_host : Bytes := []
  web_port : UInt16 := 8420
  git_program : Bytes := []
  ssh_program : Bytes := []
  deriving DecidableEq, Repr

namespace Client

/-- The keys of the file besides its schema. -/
inductive Key where
  | client_id | display_name | server | remote_name | git_program | ssh_program | web_host | web_port | scan_root
  | exclude | public_path_mode
  deriving DecidableEq

/-- Each key as the file spells it. -/
def keys : List (String × Key) :=
  [("client_id", .client_id), ("display_name", .display_name), ("server", .server), ("remote_name", .remote_name),
   ("git_program", .git_program), ("ssh_program", .ssh_program), ("web_host", .web_host), ("web_port", .web_port),
   ("scan_root", .scan_root), ("exclude", .exclude), ("public_path_mode", .public_path_mode)]

def keyOf (key : Bytes) : Option Key := (keys.find? fun entry => ascii entry.1 == key).map Prod.snd

end Client

/-- A visible name of bounded length. -/
def isSafeDisplayName (value : Bytes) : Bool :=
  !value.isEmpty && value.length ≤ 128 && !hasControlCharacter value && isValidUtf8 value

/-- user@host, of plain characters. -/
def isValidServer (value : Bytes) : Bool :=
  match value.splitOn '@'.toUInt8 with
  | [user, host] =>
    !user.isEmpty && !host.isEmpty && value.length ≤ 255 && !hasControlCharacter value
      && !(value.any fun byte => (ascii "/:\\?#").contains byte)
      && user.head? != some '-'.toUInt8 && host.head? != some '-'.toUInt8
      && user.all (fun byte => isAlnum byte || byte == '-'.toUInt8 || byte == '_'.toUInt8)
      && host.all (fun byte => isAlnum byte || byte == '-'.toUInt8 || byte == '.'.toUInt8)
      && host.head? != some '.'.toUInt8 && host.getLast? != some '.'.toUInt8
  | _ => false

/-- A remote name that git takes. -/
def isValidRemoteName (value : Bytes) : Bool :=
  !value.isEmpty && value.length ≤ 64 && value.head? != some '-'.toUInt8 && !hasControlCharacter value
    && value.all isNameCharacter

/-- An SSH alias or user@host, of plain characters. -/
def isValidWebHost (value : Bytes) : Bool :=
  let safe := fun (part : Bytes) (host : Bool) =>
    !part.isEmpty && part.head? != some '-'.toUInt8
      && part.all fun byte => isAlnum byte || byte == '-'.toUInt8 || byte == '_'.toUInt8 || (host && byte == '.'.toUInt8)
  !value.isEmpty && value.length ≤ 255
    && match findFrom (· == '@'.toUInt8) value 0 with
      | none => safe value true
      | some at_ => safe (value.take at_) false && safe (value.drop (at_ + 1)) true

/-- A line as a setting; empty lines and comments are none. -/
def splitClientLine (line : Bytes) : Except Refusal (Option Setting) := do
  rejectIf (line.length > kMaximumLineBytes ∨ line.getLast? = some carriage)
    (.configError "line is too long or uses CRLF")
  if line = [] ∨ line.head? = some hash then return none
  match cut line with
  | none => throw (.configError "expected exactly one key=value separator")
  | some (key, value) =>
    rejectIf (equals ∈ value) (.configError "expected exactly one key=value separator")
    rejectIf (hasControlCharacter key ∨ hasControlCharacter value ∨ hasOuterWhitespace key ∨ hasOuterWhitespace value)
      (.configError "keys and values may not contain control or outer whitespace")
    return some (key, value)

/-- The absolute path of a tool. -/
def readProgram (value : Bytes) : Except Refusal Bytes := do
  let refused := .configError "tool program must be an absolute path"
  rejectIf (!isValidUtf8 value) refused
  let path ← pathFromUtf8 value
  rejectIf (!isAbsolute path) refused
  return path

/-- One more directory to scan, up to the limit. -/
def readScanRoot (config : ClientConfig) (value : Bytes) : Except Refusal ClientConfig := do
  let refused := .configError "invalid or excessive scan_root"
  rejectIf (value = [] ∨ !isValidUtf8 value) refused
  let path ← pathFromUtf8 value
  rejectIf (!isAbsolute path ∨ config.scan_roots.length = kMaximumListEntries) refused
  return { config with scan_roots := config.scan_roots ++ [path] }

/-- What a known key does to the configuration. -/
def storeClientField (config : ClientConfig) (key : Client.Key) (value : Bytes) : Except Refusal ClientConfig :=
  match key with
  | .client_id => do
    rejectIf (!isValidClientId value) (.configError "invalid client_id")
    return { config with client_id := value }
  | .display_name => do
    rejectIf (!isSafeDisplayName value) (.configError "invalid display_name")
    return { config with display_name := value }
  | .server => do
    rejectIf (!isValidServer value) (.configError "invalid server; expected user@host")
    return { config with server := value }
  | .remote_name => do
    rejectIf (!isValidRemoteName value) (.configError "invalid remote_name")
    return { config with remote_name := value }
  | .git_program => return { config with git_program := ← readProgram value }
  | .ssh_program => return { config with ssh_program := ← readProgram value }
  | .web_host => do
    rejectIf (!isValidWebHost value) (.configError "invalid web_host; expected an SSH alias or user@host")
    return { config with web_host := value }
  | .web_port =>
    match parseDecimal (2 ^ 32 - 1) value with
    | none => throw (.configError "web_port must be between 1 and 65535")
    | some port => do
      rejectIf (port = 0 ∨ port > 65535) (.configError "web_port must be between 1 and 65535")
      return { config with web_port := UInt16.ofNat port }
  | .scan_root => readScanRoot config value
  | .exclude => do
    rejectIf (value = [] ∨ value.length > 256 ∨ !isValidUtf8 value ∨ config.exclusions.length = kMaximumListEntries)
      (.configError "invalid or excessive exclude pattern")
    return { config with exclusions := config.exclusions ++ [value] }
  | .public_path_mode =>
    if value = ascii "basename" then return { config with expose_full_paths := false }
    else if value = ascii "full" then return { config with expose_full_paths := true }
    else throw (.configError "public_path_mode must be basename or full")

/-- One setting of the file; an unknown key is refused. -/
def clientField (config : ClientConfig) (setting : Setting) : Except Refusal ClientConfig :=
  match Client.keyOf setting.1 with
  | none => throw (.configError "unknown field")
  | some key => storeClientField config key setting.2

/-- The format: which keys there are, and which may stand more than once. -/
def clientFormat : Format ClientConfig where
  split := splitClientLine
  repeats := fun key => key == ascii "scan_root" || key == ascii "exclude"
  duplicate := "duplicate singleton field"
  field := clientField

/-- The text of a file as a configuration, with the directory it lies in. -/
def loadClientConfig (directory text : Bytes) : Except LoadError ClientConfig := do
  rejectIf (text.length > kMaximumConfigBytes) (.unusable "client configuration is too large or unavailable")
  let loading ← clientFormat.readLines 1 { config := {} } (fileLines text)
  let config := loading.config
  rejectIf (!loading.has_schema ∨ config.client_id = [] ∨ config.display_name = [] ∨ config.server = []
    ∨ config.remote_name = []) (.unusable "client configuration is missing a required field")
  return { config with config_directory := directory }

/-- One line of the file; a value that would not be read back is refused. -/
def add (output : Bytes) (key : String) (value : Bytes) : Except String Bytes := do
  rejectIf (value = [] ∨ equals ∈ value ∨ hasControlCharacter value ∨ hasOuterWhitespace value ∨ !isValidUtf8 value
    ∨ (ascii key).length + value.length + 1 > kMaximumLineBytes)
    (key ++ " contains an empty, unsafe, or oversized value")
  let output := output ++ framed [Setting.line (ascii key, value)]
  rejectIf (output.length > kMaximumConfigBytes) "client configuration exceeds 64 KiB"
  return output

def addWebHost (output host : Bytes) : Except String Bytes :=
  if host = [] then return output else add output "web_host" host

def addProgram (output : Bytes) (key : String) (program : Bytes) : Except String Bytes := do
  if program = [] then return output
  rejectIf (!isAbsolute program) "tool program must be an absolute path"
  add output key program

def addScanRoot (output root : Bytes) : Except String Bytes := do
  rejectIf (!isAbsolute root) "scan_root must be an absolute path"
  add output "scan_root" root

def addExclusion (output pattern : Bytes) : Except String Bytes := do
  rejectIf (pattern.length > 256) "exclude pattern exceeds 256 bytes"
  add output "exclude" pattern

/-- What is refused before anything is written. -/
def checkClientConfig (config : ClientConfig) : Except String Unit := do
  rejectIf (config.schema_version ≠ 1) "schema_version must be 1"
  rejectIf (!isValidClientId config.client_id) "client_id must be a valid device identifier"
  rejectIf (!isSafeDisplayName config.display_name) "display_name must contain 1 to 128 printable UTF-8 bytes"
  rejectIf (!isValidServer config.server) "server must be user@host (use an SSH alias for custom ports)"
  rejectIf (!isValidRemoteName config.remote_name) "remote_name must be a valid Git remote name"
  rejectIf (config.web_host ≠ [] ∧ !isValidWebHost config.web_host) "web_host must be an SSH alias or user@host"
  rejectIf (config.web_port = 0) "web_port must be between 1 and 65535"
  rejectIf (config.scan_roots.length > kMaximumListEntries ∨ config.exclusions.length > kMaximumListEntries)
    "configuration allows at most 64 scan roots and 64 exclusions"

/-- The text of the file, its fields in a fixed order. -/
def renderClientConfig (config : ClientConfig) : Except String Bytes := do
  checkClientConfig config
  let output ← add [] "schema_version" (ascii "1")
  let output ← add output "client_id" config.client_id
  let output ← add output "display_name" config.display_name
  let output ← add output "server" config.server
  let output ← add output "remote_name" config.remote_name
  let output ← add output "public_path_mode" (if config.expose_full_paths then ascii "full" else ascii "basename")
  let output ← addWebHost output config.web_host
  let output ← add output "web_port" (decimal config.web_port.toNat)
  let output ← addProgram output "git_program" config.git_program
  let output ← addProgram output "ssh_program" config.ssh_program
  let output ← config.scan_roots.foldlM addScanRoot output
  config.exclusions.foldlM addExclusion output

end CkGit.Config
