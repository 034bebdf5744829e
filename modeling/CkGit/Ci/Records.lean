import CkGit.Ci.Names

/-!
The records of the CI store (include/ckgit/ci_store.hpp) and the execution
report inside a run record (src/common/ci_types.cpp). A std::string is a byte
string; integers keep the source's widths. An execution report is only ever
built by its parser, so it carries what the parser checked.
-/
namespace CkGit.Ci
open CkGit.Base

inductive CiRunStatus where
  | pending
  | running
  | success
  | failure
  | timeout
  | error
  | skipped
  | cancelled
  deriving DecidableEq, Repr

def ciRunStatusName (status : CiRunStatus) : Bytes :=
  match status with
  | .pending => ascii "pending"
  | .running => ascii "running"
  | .success => ascii "success"
  | .failure => ascii "failure"
  | .timeout => ascii "timeout"
  | .error => ascii "error"
  | .skipped => ascii "skipped"
  | .cancelled => ascii "cancelled"

def ciRunStatusFromName (name : Bytes) : Option CiRunStatus :=
  if name = ascii "pending" then some .pending
  else if name = ascii "running" then some .running
  else if name = ascii "success" then some .success
  else if name = ascii "failure" then some .failure
  else if name = ascii "timeout" then some .timeout
  else if name = ascii "error" then some .error
  else if name = ascii "skipped" then some .skipped
  else if name = ascii "cancelled" then some .cancelled
  else none

/-- A status a run can still leave. -/
def ciRunStatusIsActive (status : CiRunStatus) : Bool :=
  status == .pending || status == .running

@[simp] theorem ciRunStatusFromName_name (status : CiRunStatus) :
    ciRunStatusFromName (ciRunStatusName status) = some status := by
  cases status <;> decide

theorem ciRunStatusFromName_spelled {field : Bytes} {status : CiRunStatus} :
    ciRunStatusFromName field = some status ↔ field = ciRunStatusName status := by
  constructor
  · intro read
    unfold ciRunStatusFromName at read
    repeat'
      split at read
      · cases read
        assumption
    cases read
  · rintro rfl
    exact ciRunStatusFromName_name status

inductive Platform where
  | windows
  | linux
  | macos
  deriving DecidableEq, Repr

inductive Architecture where
  | x64
  | arm64
  | x86
  deriving DecidableEq, Repr

inductive Isolation where
  | lpac
  | hypervHcs
  | linuxNamespaces
  | seatbelt
  | none
  deriving DecidableEq, Repr

inductive Network where
  | denied
  | loopbackOnly
  | unrestricted
  deriving DecidableEq, Repr

def Platform.text : Platform → Bytes
  | .windows => ascii "windows"
  | .linux => ascii "linux"
  | .macos => ascii "macos"

def Architecture.text : Architecture → Bytes
  | .x64 => ascii "x64"
  | .arm64 => ascii "arm64"
  | .x86 => ascii "x86"

def Isolation.text : Isolation → Bytes
  | .lpac => ascii "lpac"
  | .hypervHcs => ascii "hyperv-hcs"
  | .linuxNamespaces => ascii "linux-namespaces"
  | .seatbelt => ascii "seatbelt"
  | .none => ascii "none"

def Network.text : Network → Bytes
  | .denied => ascii "denied"
  | .loopbackOnly => ascii "loopback-only"
  | .unrestricted => ascii "unrestricted"

def Isolation.matchesPlatform (isolation : Isolation) (platform : Platform) : Bool :=
  match isolation with
  | .lpac | .hypervHcs => platform == .windows
  | .linuxNamespaces => platform == .linux
  | .seatbelt => platform == .macos
  | .none => true

structure CiExecutionReport where
  platform : Platform
  architecture : Architecture
  isolation : Isolation
  network : Network
  memory_bytes : UInt64 := 0
  process_limit : UInt32 := 0
  timeout_seconds : UInt32 := 0
  consistent : isolation.matchesPlatform platform
  deriving DecidableEq

def formatCiExecutionReport (report : CiExecutionReport) : Bytes :=
  [comma].intercalate
    [ascii "1", report.platform.text, report.architecture.text, report.isolation.text,
      report.network.text, decimal report.memory_bytes.toNat, decimal report.process_limit.toNat,
      decimal report.timeout_seconds.toNat]

/-- The value whose text this is. -/
def fromText {α : Type} (text : α → Bytes) (values : List α) (field : Bytes) : Option α :=
  values.find? fun value => text value == field

def parseCiExecutionReport (text : Bytes) : Except String CiExecutionReport :=
  if text.length > 256 then .error "execution report too large"
  else match text.splitOn comma with
  | [version, platform, architecture, isolation, network, memory, processes, timeout] =>
    let known := do
      let platform ← fromText Platform.text [.windows, .linux, .macos] platform
      let architecture ← fromText Architecture.text [.x64, .arm64, .x86] architecture
      let isolation ← fromText Isolation.text
        [.lpac, .hypervHcs, .linuxNamespaces, .seatbelt, .none] isolation
      let network ← fromText Network.text [.denied, .loopbackOnly, .unrestricted] network
      if version = ascii "1" then some (platform, architecture, isolation, network) else none
    match known with
    | none => .error "unknown execution report value"
    | some (platform, architecture, isolation, network) =>
      if consistent : isolation.matchesPlatform platform then
        match parseDecimal (2 ^ 64 - 1) memory, parseDecimal (2 ^ 32 - 1) processes,
            parseDecimal (2 ^ 32 - 1) timeout with
        | some memory, some processes, some timeout =>
          .ok { platform, architecture, isolation, network, memory_bytes := .ofNat memory,
                process_limit := .ofNat processes, timeout_seconds := .ofNat timeout, consistent }
        | _, _, _ => .error "invalid execution resource limit"
      else .error "execution isolation does not match platform"
  | _ => .error "malformed execution report"

structure CiStepResult where
  name : Bytes := []
  exit_code : Int32 := 0
  timed_out : Bool := false
  output_truncated : Bool := false
  deriving DecidableEq

/-- Everything run.ini holds; the artifacts of a run are in files of their own. -/
structure CiRunRecord where
  run_id : Bytes
  project_name : Bytes
  ref : Bytes
  commit_id : Bytes
  status : CiRunStatus := .pending
  started_epoch_seconds : UInt64 := 0
  finished_epoch_seconds : UInt64 := 0
  heartbeat_epoch_seconds : UInt64 := 0
  runner : Bytes := []
  attempt : UInt32 := 1
  detail : Bytes := []
  steps : List CiStepResult := []
  parent_run_id : Bytes := []
  workflow_job : Bytes := []
  execution : Option CiExecutionReport := none
  deriving DecidableEq

structure CiJobRequest where
  job_id : Bytes
  project_name : Bytes
  ref : Bytes
  commit_id : Bytes
  client_id : Bytes
  queued_epoch_seconds : UInt64 := 0
  attempt : UInt32 := 1
  runs_on : List Bytes := []
  auto_cancel : Bool := true
  parent_run_id : Bytes := []
  workflow_job : Bytes := []
  needs : List Bytes := []
  dependency_lock_sha256 : Bytes := []
  deriving DecidableEq

def kMaximumCiDetailBytes : Nat := 512
def kMaximumCiRunRecordBytes : Nat := 64 * 1024
/-- The most step results one run record holds. -/
def kMaximumCiSteps : Nat := 4096
/-- The most jobs of one workflow. -/
def kMaximumCiJobs : Nat := 64

end CkGit.Ci
