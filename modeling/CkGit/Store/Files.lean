import CkGit.Base.Prog
import CkGit.Ci.RunCodec
import Mathlib.Data.List.AList

/-!
The files of the CI state (src/common/ci_store.cpp): the queue directories
spool, working, leases and groups, and one directory for each run. Every file
operation of the source is one write: atomicWriteAt renames a flushed staging
file over its target, renameat and unlinkat are atomic. Errors of the operating
system are not modelled; permissions and directory flushes leave no trace here.
-/
namespace CkGit.Store
open CkGit.Base CkGit.Ci

inductive Directory where
  | spool
  | working
  | leases
  | groups
  deriving DecidableEq, Repr

/-- What a run's directory holds. The logs are those under steps/. -/
inductive RunFile where
  | directory
  | record
  | workflow
  | cancel
  | outputsPending
  | outputsCommitted
  | log (index : Nat)
  | aside (attempt index : Nat)
  | artifact (name : Bytes)
  | incoming (name : Bytes)
  deriving DecidableEq, Repr

inductive Path where
  | queue (directory : Directory) (name : Bytes)
  | run (project id : Bytes) (file : RunFile)
  deriving DecidableEq, Repr

structure File where
  bytes : Bytes
  /-- st_mtim in milliseconds. -/
  modified : Int := 0
  deriving DecidableEq

/-- The state every process of the server sees. -/
structure Files where
  entries : AList fun _ : Path => File

namespace Files

instance : EmptyCollection Files := ⟨⟨∅⟩⟩

def get (s : Files) (path : Path) : Option File := s.entries.lookup path

def put (s : Files) (path : Path) (file : File) : Files := ⟨s.entries.insert path file⟩

def remove (s : Files) (path : Path) : Files := ⟨s.entries.erase path⟩

/-- renameat: the target is replaced; a missing source changes nothing. -/
def rename (s : Files) (source target : Path) : Files :=
  match s.get source with
  | none => s
  | some file => (s.remove source).put target file

/-- Every path with a file. -/
def paths (s : Files) : List Path := s.entries.keys

/-- listNames of a queue directory. -/
def names (s : Files) (directory : Directory) : List Bytes :=
  s.paths.filterMap fun path =>
    match path with
    | .queue other name => if other = directory then some name else none
    | .run .. => none

/-- The projects and run ids that have a directory. -/
def runs (s : Files) : List (Bytes × Bytes) :=
  s.paths.filterMap fun path =>
    match path with
    | .run project id .directory => some (project, id)
    | _ => none

variable {s : Files} {path other source target : Path} {file : File}

@[simp] theorem get_empty : (∅ : Files).get path = none := rfl

@[simp] theorem get_put_self : (s.put path file).get path = some file := AList.lookup_insert _

theorem get_put : (s.put path file).get other = if other = path then some file else s.get other := by
  by_cases same : other = path
  · rw [if_pos same, same, get_put_self]
  · rw [if_neg same]
    exact AList.lookup_insert_ne same

theorem get_put_ne (different : other ≠ path) : (s.put path file).get other = s.get other := by
  rw [get_put, if_neg different]

@[simp] theorem get_remove_self : (s.remove path).get path = none := AList.lookup_erase _ _

theorem get_remove : (s.remove path).get other = if other = path then none else s.get other := by
  by_cases same : other = path
  · rw [if_pos same, same, get_remove_self]
  · rw [if_neg same]
    exact AList.lookup_erase_ne same

theorem get_remove_ne (different : other ≠ path) : (s.remove path).get other = s.get other := by
  rw [get_remove, if_neg different]

def kUnsafeRecord : String := "a CI record is unsafe or exceeds its size limit"

/-- readCappedAt: `none` is the missing file. -/
def readCapped (s : Files) (path : Path) (cap : Nat) : Except String (Option Bytes) :=
  match s.get path with
  | none => .ok none
  | some file => if file.bytes.length > cap then fail kUnsafeRecord else .ok (some file.bytes)

/-- A reader that treats whatever it cannot parse as missing. -/
def readAs {α : Type} (s : Files) (path : Path) (cap : Nat) (parse : Bytes → Except String α) :
    Option α :=
  match s.readCapped path cap with
  | .ok (some content) => (parse content).toOption
  | _ => none

theorem readCapped_congr {t : Files} {cap : Nat} (same : t.get path = s.get path) :
    t.readCapped path cap = s.readCapped path cap := by
  simp only [readCapped, same]

theorem readAs_congr {α : Type} {t : Files} {cap : Nat} {parse : Bytes → Except String α}
    (same : t.get path = s.get path) : t.readAs path cap parse = s.readAs path cap parse := by
  simp only [readAs, readCapped_congr same]

theorem readAs_some {α : Type} {cap : Nat} {parse : Bytes → Except String α} {value : α} :
    s.readAs path cap parse = some value ↔
      ∃ file, s.get path = some file ∧ file.bytes.length ≤ cap ∧ parse file.bytes = .ok value := by
  unfold readAs readCapped
  cases held : s.get path with
  | none => simp
  | some file =>
    by_cases long : file.bytes.length > cap
    · simp [long, fail, Nat.not_le.mpr long]
    · cases outcome : parse file.bytes with
      | ok a => simp [long, outcome, Except.toOption, Nat.not_lt.mp long]
      | error e => simp [long, outcome, Except.toOption]

end Files

/-- Whatever an operation takes from its host: the clock, a fresh lease token
and the order in which a directory is listed. -/
structure Host where
  /-- currentEpoch -/
  now : UInt64
  /-- system_clock::now in milliseconds -/
  millis : Int
  /-- generateLeaseToken -/
  token : Bytes
  order : List Bytes → List Bytes
  order_perm : ∀ names, (order names).Perm names

/-- An operation on the CI state. -/
abbrev Op (α : Type) := Prog Files String α

def ini (id : Bytes) : Bytes := id ++ ascii ".ini"

def isIni (name : Bytes) : Bool := (ascii ".ini").isSuffixOf name

theorem ini_injective {a b : Bytes} (h : ini a = ini b) : a = b := List.append_cancel_right h

end CkGit.Store
