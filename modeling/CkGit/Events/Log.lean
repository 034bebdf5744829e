import CkGit.Base.Checks
import CkGit.Base.Prog
import CkGit.Ci.Names

/-!
The server event log of src/common/metadata_store.cpp: appendStateEvent with
rotateEvents, eventLogNames, parseEvents and the load of every archive. A
directory entry names a file, and two entries may name one file, as between the
link and the unlink of a rotation. A record is written byte by byte. The lock,
the owner and mode checks of the files and their syncs are not modelled; a crash
keeps every finished operation.
-/
namespace CkGit.Events
open CkGit.Base CkGit.Ci

def kMaximumEventLogBytes : Nat := 64 * 1024
def kMaximumEventLineBytes : Nat := 256

structure StateEvent where
  epoch_seconds : UInt64
  kind : Bytes
  project_name : Bytes
  client_id : Bytes
  deriving DecidableEq, Repr

def isValidEventKind (kind : Bytes) : Bool :=
  !kind.isEmpty && kind.length ≤ 48
    && kind.all fun character => isLowerCase character || character == '-'.toUInt8

def eventLine (event : StateEvent) : Bytes :=
  decimal event.epoch_seconds.toNat ++ tab :: event.kind ++ tab :: event.project_name
    ++ tab :: event.client_id

def serializeEvent (event : StateEvent) : Bytes := eventLine event ++ [newline]

def parseEvent (line : Bytes) : Except String StateEvent := do
  rejectIf (line.isEmpty ∨ line.length > kMaximumEventLineBytes)
    "server event log has invalid framing"
  match line.splitOn tab with
  | [epoch_text, kind, project_name, client_id] =>
    match parseDecimal (2 ^ 64 - 1) epoch_text with
    | some epoch =>
      rejectIf (¬ (isValidEventKind kind ∧ isValidProjectName project_name ∧ isValidClientId client_id))
        "server event log contains invalid data"
      return { epoch_seconds := epoch.toUInt64, kind, project_name, client_id }
    | none => .error "server event log contains invalid data"
  | _ => .error "server event log has invalid schema"

/-- An incomplete last line is ignored. -/
def parseEvents (content : Bytes) : Except String (List StateEvent) :=
  (content.splitOn newline).dropLast.mapM parseEvent

structure EventDirectory where
  entries : List (Bytes × Nat)
  files : List Bytes
  deriving DecidableEq, Repr

namespace EventDirectory

def find (directory : EventDirectory) (name : Bytes) : Option Nat := directory.entries.lookup name

def content (directory : EventDirectory) (name : Bytes) : Bytes :=
  ((directory.find name).bind fun file => directory.files[file]?).getD []

def names (directory : EventDirectory) : List Bytes := directory.entries.map (·.1)

/-- Opening with O_CREAT. -/
def create (name : Bytes) (directory : EventDirectory) : EventDirectory :=
  match directory.find name with
  | some _ => directory
  | none =>
    { entries := directory.entries ++ [(name, directory.files.length)]
      files := directory.files ++ [[]] }

def append (name : Bytes) (byte : UInt8) (directory : EventDirectory) : EventDirectory :=
  match directory.find name with
  | some file => { directory with files := directory.files.modify file (· ++ [byte]) }
  | none => directory

def link (existing name : Bytes) (directory : EventDirectory) : EventDirectory :=
  match directory.find existing with
  | some file => { directory with entries := directory.entries ++ [(name, file)] }
  | none => directory

def unlink (name : Bytes) (directory : EventDirectory) : EventDirectory :=
  { directory with entries := directory.entries.filter fun entry => entry.1 != name }

end EventDirectory

def liveLog : Bytes := ascii "events.log"

/-- The order of std::string. -/
def textBefore : Bytes → Bytes → Bool
  | _, [] => false
  | [], _ :: _ => true
  | a :: as, b :: bs => a < b || (a == b && textBefore as bs)

/-- Fixed-width sequence suffixes sort after the first archive of a month; the live log is
always newest. -/
def key (name : Bytes) : Bytes :=
  if name = liveLog then ascii "~"
  else if name.length = (ascii "events.2026-09.log").length then
    name.take (name.length - 4) ++ ascii ".000000.log"
  else name

def isEventLog (name : Bytes) : Bool :=
  name == liveLog || ((ascii "events.").isPrefixOf name && (ascii ".log").isSuffixOf name)

def eventLogNames (directory : EventDirectory) : List Bytes :=
  (directory.names.filter isEventLog).mergeSort fun a b => !textBefore (key b) (key a)

def readEvents (directory : EventDirectory) (name : Bytes) : Except String (List StateEvent) := do
  let content := directory.content name
  rejectIf (content.length > kMaximumEventLogBytes) "server event log is unsafe"
  parseEvents content

/-- Every archive and the live log, oldest first. -/
def loadEvents (directory : EventDirectory) : Except String (List StateEvent) := do
  let logs ← (eventLogNames directory).mapM (readEvents directory)
  return logs.flatten

/-- The months since year 0, by the Gregorian calendar. -/
def monthNumber (now : Nat) : Nat :=
  let day := now / 86400 + 719468
  let era := day / 146097
  let doe := day % 146097
  let yoe := (doe - doe / 1460 + doe / 36524 - doe / 146096) / 365
  let doy := doe - (365 * yoe + yoe / 4 - yoe / 100)
  let mp := (5 * doy + 2) / 153
  (yoe + era * 400) * 12 + mp + 2

/-- A number with leading zeros. -/
def padded (width n : Nat) : Bytes :=
  List.replicate (width - (decimal n).length) '0'.toUInt8 ++ decimal n

/-- strftime with `%Y-%m`. -/
def monthText (month : Nat) : Bytes := decimal (month / 12) ++ '-'.toUInt8 :: padded 2 (month % 12 + 1)

/-- The month of an archive, when its text fits its seven characters. -/
def archiveMonth (now : Nat) : Except String Bytes := do
  let month := monthText (monthNumber now)
  rejectIf (month.length > 7) "could not determine event archive month"
  return month

def archiveName (month : Bytes) (sequence : Nat) : Bytes :=
  let suffix := if sequence = 0 then [] else '.'.toUInt8 :: padded 6 sequence
  ascii "events." ++ month ++ suffix ++ ascii ".log"

/-- The first archive name that is free. -/
def freeArchive (month : Bytes) (directory : EventDirectory) : Except String Bytes :=
  let sequence := (List.range 1000000).find? fun sequence =>
    (directory.find (archiveName month sequence)).isNone
  sequence.elim (.error "server event archive sequence exhausted") fun sequence =>
    .ok (archiveName month sequence)

def rotateEvents (now : Nat) : Prog EventDirectory String Unit := do
  let month ← .ofExcept (archiveMonth now)
  let archive ← .reads (freeArchive month)
  .modify (·.link liveLog archive)
  .modify (·.unlink liveLog)

/-- The log a rotated append writes. -/
def createRotated : Prog EventDirectory String Unit := do
  .reads fun directory =>
    rejectIf (directory.find liveLog).isSome "could not create rotated server event log"
  .modify (·.create liveLog)

def writeAll (record : Bytes) : Prog EventDirectory String Unit :=
  .forEach record fun byte => .modify (·.append liveLog byte)

def ValidEvent (event : StateEvent) : Prop :=
  isValidEventKind event.kind ∧ isValidProjectName event.project_name ∧ isValidClientId event.client_id

instance (event : StateEvent) : Decidable (ValidEvent event) := inferInstanceAs (Decidable (_ ∧ _ ∧ _))

def appendStateEvent (event : StateEvent) (now : Nat) : Prog EventDirectory String Unit := do
  .ofExcept (rejectIf (¬ ValidEvent event) "invalid server event")
  let record := serializeEvent event
  .ofExcept (rejectIf (record.length > kMaximumEventLineBytes) "server event is too large")
  .modify (·.create liveLog)
  let size ← .gets fun directory => (directory.content liveLog).length
  .ofExcept (rejectIf (size > kMaximumEventLogBytes) "server event log is unsafe")
  .whenever (size + record.length > kMaximumEventLogBytes) do
    rotateEvents now
    createRotated
  writeAll record

end CkGit.Events
