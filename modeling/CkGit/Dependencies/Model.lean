import CkGit.Base.Assoc
import CkGit.Base.Prog
import CkGit.Dependencies.Lock
import CkGit.Events.Log

/-!
Dependency approvals: src/common/ci_dependency_store.cpp. A request is a directory
below its project, named by the digest of its lock, with the records lock.yml,
journal and commits. A record is staged and renamed, which is one write; what is
staged and never renamed is not seen. The directories above a request are only
there for requests, and no operation tells them missing from empty. Every call
holds the locks of its project and request, so calls run one after the other.
Ownership and mode checks are not modelled, and the clock is past 1970.
-/
namespace CkGit.Dependencies
open CkGit.Base CkGit.Ci
open CkGit.Events (textBefore)

def fail {α : Type} (message : String) : Checked α := .error (.store ("dependency store: " ++ message))

def failIf (bad : Prop) [Decidable bad] (message : String) : Checked Unit :=
  rejectIf bad (.store ("dependency store: " ++ message))

structure CiDependencyDecision where
  sequence : UInt64
  epoch : UInt64
  effective_uid : UInt64
  package : Bytes
  action : Bytes
  deriving DecidableEq

structure CiDependencyRequest where
  lock : CiDependencyLock
  history : List CiDependencyDecision
  commits : List Bytes
  deriving DecidableEq

structure RequestDirectory where
  lock : Option Bytes := none
  journal : Option Bytes := none
  commits : Option Bytes := none
  deriving DecidableEq

/-- The project and the digest of a request. -/
abbrev Key := Bytes × Bytes

abbrev Store := List (Key × RequestDirectory)

def kMaximumJournalBytes : Nat := 1024 * 1024
def kMaximumCommitsBytes : Nat := 16 * 1024
def kMaximumDecisions : Nat := 4096
def kMaximumCommits : Nat := 128
def kMaximumRequests : Nat := 1024

/-- A record that may be missing. -/
def readOptional (record : Option Bytes) (limit : Nat) : Checked Bytes :=
  match record with
  | none => .ok []
  | some bytes => do
    failIf (bytes.length > limit) "record exceeds limit"
    return bytes

def read (record : Option Bytes) (limit : Nat) : Checked Bytes :=
  match record with
  | none => fail "unsafe ownership, mode or type"
  | some _ => readOptional record limit

def number (value : Bytes) : Checked UInt64 :=
  match parseDecimal (2 ^ 64 - 1) value with
  | some result => .ok result.toUInt64
  | none => fail "invalid journal number"

def actions : List Bytes := [ascii "approve", ascii "reject", ascii "revoke"]

def decisionRow (lock : CiDependencyLock) (result : List CiDependencyDecision) (row : Bytes) :
    Checked (List CiDependencyDecision) :=
  match row.splitOn tab with
  | [sequence, epoch, effective_uid, package, action] => do
    failIf (result.length ≥ kMaximumDecisions) "invalid journal"
    let sequence ← number sequence
    let epoch ← number epoch
    let effective_uid ← number effective_uid
    failIf (sequence.toNat ≠ result.length + 1 ∨ package ∉ lock.packages.map (·.name) ∨ action ∉ actions)
      "invalid decision"
    return result ++ [{ sequence, epoch, effective_uid, package, action }]
  | _ => fail "invalid journal"

/-- The rows of a record, each ended by a newline. -/
def rows {α : Type} (bytes : Bytes) (row : List α → Bytes → Checked (List α)) (truncated : String) : Checked (List α) := do
  let lines := bytes.splitOn newline
  let result ← lines.dropLast.foldlM row []
  failIf (lines.getLast? ≠ some []) truncated
  return result

def history (bytes : Bytes) (lock : CiDependencyLock) : Checked (List CiDependencyDecision) :=
  rows bytes (decisionRow lock) "truncated journal"

def commitRow (commits : List Bytes) (commit : Bytes) : Checked (List Bytes) := do
  failIf (commits.length ≥ kMaximumCommits) "invalid request commits"
  failIf (¬ isValidObjectId commit ∨ commit ∈ commits) "invalid request commit"
  return commits ++ [commit]

def load (readers : Readers) (directory : RequestDirectory) (expected : Bytes) : Checked CiDependencyRequest := do
  let text ← read directory.lock kMaximumLockBytes
  let lock ← parseCiDependencyLock readers text
  failIf (lock.sha256 ≠ expected) "lock digest mismatch"
  let journal ← readOptional directory.journal kMaximumJournalBytes
  let history ← history journal lock
  let bytes ← readOptional directory.commits kMaximumCommitsBytes
  let commits ← rows bytes commitRow "invalid request commits"
  return { lock, history, commits }

inductive ApprovalStatus where
  | pending
  | rejected
  | approved
  deriving DecidableEq

/-- The last action on a package. -/
def latest (decisions : List (Bytes × Bytes)) (package : Bytes) : Option Bytes :=
  (decisions.reverse.find? (·.1 = package)).map (·.2)

def CiDependencyRequest.decisions (request : CiDependencyRequest) : List (Bytes × Bytes) :=
  request.history.map fun event => (event.package, event.action)

def ciDependencyApprovalStatus (request : CiDependencyRequest) : ApprovalStatus :=
  if request.lock.packages = [] ∨ ¬ isValidSha256Hex request.lock.sha256 then .pending
  else if request.lock.packages.any fun package => latest request.decisions package.name = some (ascii "reject") then
    .rejected
  else if request.lock.packages.any fun package => latest request.decisions package.name ≠ some (ascii "approve") then
    .pending
  else .approved

def requestAt (store : Store) (key : Key) : Option RequestDirectory := Assoc.get key store

/-- mkdir of a request; one that is there stays. -/
def makeDirectory (key : Key) (store : Store) : Store :=
  match requestAt store key with
  | some _ => store
  | none => Assoc.put key {} store

def edit (key : Key) (change : RequestDirectory → RequestDirectory) (store : Store) : Store :=
  match requestAt store key with
  | some old => Assoc.put key (change old) store
  | none => store

def opened (store : Store) (key : Key) : Checked RequestDirectory :=
  match requestAt store key with
  | some found => .ok found
  | none => fail "request not found"

/-- The commit of a registration, once the lock is there. -/
def registerCommit (readers : Readers) (key : Key) (commit : Bytes) : Prog Store DependencyError Unit := do
  let record ← .reads fun store => do load readers (← opened store key) key.2
  .whenever (commit ≠ [] ∧ commit ∉ record.commits) do
    .ofExcept (failIf (record.commits.length ≥ kMaximumCommits) "too many request commits")
    let commits ← .reads fun store => do readOptional (← opened store key).commits kMaximumCommitsBytes
    .modify (edit key fun request => { request with commits := some (commits ++ commit ++ [newline]) })

def registerCiDependencyRequest (readers : Readers) (project bytes commit : Bytes) :
    Prog Store DependencyError Bytes := do
  .ofExcept (failIf (¬ isValidProjectName project) "invalid project")
  .ofExcept (failIf (commit ≠ [] ∧ ¬ isValidObjectId commit) "invalid request commit")
  let parsed ← .ofExcept (parseCiDependencyLock readers bytes)
  let key := (project, parsed.sha256)
  .modify (makeDirectory key)
  let old ← .reads fun store => do readOptional (← opened store key).lock kMaximumLockBytes
  .ofExcept (failIf (old ≠ [] ∧ old ≠ bytes) "digest collision")
  .whenever (old = []) (.modify (edit key fun request => { request with lock := some bytes }))
  registerCommit readers key commit
  return parsed.sha256

/-- A row of the journal, without its newline. -/
def journalRow (sequence epoch effective_uid : Nat) (package action : Bytes) : Bytes :=
  decimal sequence ++ tab :: decimal epoch ++ tab :: decimal effective_uid ++ tab :: package ++ tab :: action

def decideCiDependency (readers : Readers) (project digest_value package action : Bytes) (now : UInt64) (euid : UInt32) :
    Prog Store DependencyError Unit := do
  .ofExcept (failIf (¬ isValidProjectName project) "invalid project")
  .ofExcept (failIf (¬ isValidSha256Hex digest_value ∨ action ∉ actions) "invalid decision")
  let key := (project, digest_value)
  let record ← .reads fun store => do load readers (← opened store key) digest_value
  .ofExcept (failIf (package ∉ record.lock.packages.map (·.name)) "package not found")
  .ofExcept (failIf (record.history.length ≥ kMaximumDecisions) "decision journal full")
  let old ← .reads fun store => do readOptional (← opened store key).journal kMaximumJournalBytes
  let bytes := old ++ (journalRow (record.history.length + 1) now.toNat euid.toNat package action ++ [newline])
  .ofExcept (failIf (bytes.length > kMaximumJournalBytes) "decision journal full")
  .modify (edit key fun request => { request with journal := some bytes })

def names (store : Store) (project : Bytes) : Checked (List Bytes) := do
  let found := ((store.map (·.1)).filter fun key => key.1 = project ∧ isValidSha256Hex key.2).map (·.2)
  failIf (found.length > kMaximumRequests) "too many requests"
  return found.mergeSort fun a b => !textBefore b a

/-- The requests, and whether there are more than the limit. -/
def listCiDependencyRequests (readers : Readers) (store : Store) (project : Bytes) (limit : Nat) :
    Checked (List CiDependencyRequest × Bool) := do
  failIf (¬ isValidProjectName project) "invalid project"
  let entries ← names store project
  let requests ← (entries.take limit).mapM fun name => do load readers (← opened store (project, name)) name
  return (requests, entries.length > limit)

def getCiDependencyRequest (readers : Readers) (store : Store) (project digest_value : Bytes) :
    Checked (Option CiDependencyRequest) := do
  failIf (¬ isValidProjectName project) "invalid project"
  failIf (¬ isValidSha256Hex digest_value) "invalid request digest"
  match requestAt store (project, digest_value) with
  | none => return none
  | some request => do
    let record ← load readers request digest_value
    return some record

/-- What the transaction is run with. -/
def withApprovedCiDependencyReview (readers : Readers) (store : Store)
    (project digest_value commit platform architecture : Bytes) : Checked CiDependencyRequest := do
  failIf (¬ isValidProjectName project) "invalid project"
  failIf (¬ isValidSha256Hex digest_value ∨ ¬ isValidObjectId commit) "invalid review admission request"
  let record ← load readers (← opened store (project, digest_value)) digest_value
  failIf (ciDependencyApprovalStatus record ≠ .approved ∨ commit ∉ record.commits
      ∨ record.lock.platform ≠ platform ∨ record.lock.architecture ≠ architecture)
    "review is incomplete or does not match the requested commit and target"
  return record

end CkGit.Dependencies
