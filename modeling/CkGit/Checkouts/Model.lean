import CkGit.Base.Assoc
import CkGit.Base.Prog
import CkGit.Listings.Accepted

/-!
Checkout registrations: registerCheckout, forgetCheckout and loadCheckoutMetadata
of src/common/metadata_store.cpp with src/common/checkout_path.cpp. The state is
the record of each client of each project. A record is staged and renamed, which
is one write; the check against the stored report runs before the lock is taken.
Ownership and mode checks are not modelled, and the clock is past 1970.
-/
namespace CkGit.Checkouts
open CkGit.Base CkGit.Ci
open CkGit.Control (isSafeReportedPath decodeCheckoutPath isValidCheckoutPathToken)

inductive CheckoutError where
  | invalidArgument (message : String)
  | runtime (message : String)
  | conflict (project_name : Bytes)
  deriving DecidableEq

abbrev Checked := Except CheckoutError

structure CheckoutMetadata where
  client_id : Bytes
  reported_path : Bytes
  last_seen_epoch_seconds : UInt64
  deriving DecidableEq

def backslash : UInt8 := '\\'.toUInt8

def isAlpha (character : UInt8) : Bool := isUpperCase character || isLowerCase character

def isDrivePath (value : Bytes) : Bool :=
  match value with
  | letter :: colon :: separator :: _ =>
    isAlpha letter && colon == ':'.toUInt8 && (separator == backslash || separator == slash)
  | _ => false

/-- Drive and UNC paths with slashes, and no slashes at the end. -/
def normalized (input : Bytes) : Bytes :=
  let value := if isDrivePath input || [backslash, backslash].isPrefixOf input
    then input.map fun character => if character = backslash then slash else character
    else input
  withoutTrailingSlashes value

def finalComponent (value : Bytes) : Bytes := (value.reverse.takeWhile (· ≠ slash)).reverse

def isName (value : Bytes) : Bool := !value.contains slash

def sameReportedCheckout (left right : Bytes) : Bool :=
  let a := normalized left
  let b := normalized right
  a == b || (isName a != isName b && !a.isEmpty && !b.isEmpty && finalComponent a == finalComponent b)

def encodeCheckoutPath (path : Bytes) : Checked Bytes :=
  (Listings.encodeCheckoutPath path).mapError .invalidArgument

/-- The project and the client of a report. -/
abbrev Key := Bytes × Bytes

abbrev Store := List (Key × Bytes)

def kMaximumRecordBytes : Nat := 2048

def recordText (client_id project path_hex : Bytes) (epoch : UInt64) : Bytes :=
  ascii "schema_version=1\nclient_id=" ++ client_id ++ ascii "\nproject=" ++ project ++ ascii "\npath_hex=" ++ path_hex
    ++ ascii "\nlast_seen_epoch=" ++ decimal epoch.toNat ++ ascii "\n"

def parseRecord (content project expected_client : Bytes) : Checked CheckoutMetadata :=
  match content.splitOn newline with
  | [version, client, stored_project, path, epoch, []] =>
    match expectField (ascii "client_id=") client, expectField (ascii "project=") stored_project,
      expectField (ascii "path_hex=") path, expectField (ascii "last_seen_epoch=") epoch with
    | some client, some stored_project, some encoded_path, some epoch_text => do
      rejectIf (version ≠ ascii "schema_version=1") (.runtime "checkout metadata record has invalid schema")
      match decodeCheckoutPath encoded_path, parseDecimal (2 ^ 64 - 1) epoch_text with
      | some decoded_path, some epoch => do
        rejectIf (¬ isValidClientId client ∨ client ≠ expected_client ∨ stored_project ≠ project)
          (.runtime "checkout metadata record contains invalid data")
        return { client_id := client, reported_path := decoded_path, last_seen_epoch_seconds := epoch.toUInt64 }
      | _, _ => .error (.runtime "checkout metadata record contains invalid data")
    | _, _, _, _ => .error (.runtime "checkout metadata record has invalid schema")
  | lines =>
    .error (.runtime (if lines.length < 6 then "checkout metadata record has invalid framing"
      else "checkout metadata record has invalid schema"))

def loadCheckoutMetadata (store : Store) (project_name : Bytes) : Checked (List CheckoutMetadata) := do
  rejectIf (¬ isValidProjectName project_name) (.invalidArgument "invalid project name for checkout metadata")
  let records ← (store.filter (·.1.1 = project_name)).mapM fun (key, content) => do
    rejectIf (¬ isValidClientId key.2) (.runtime "checkout metadata filename is invalid")
    rejectIf (content.length > kMaximumRecordBytes) (.runtime "checkout metadata record is unsafe")
    parseRecord content project_name key.2
  return records.mergeSort fun a b => a.client_id ≤ b.client_id

/-- A registration, without its clock. -/
structure Call where
  project_name : Bytes
  client_id : Bytes
  encoded_path : Bytes
  replace : Bool
  deriving DecidableEq

def Call.key (call : Call) : Key := (call.project_name, call.client_id)

/-- One stored report against the requested one: another folder is refused, and a name does not
take the place of a path. -/
def keepReported (call : Call) (stored_path : Bytes) (existing : CheckoutMetadata) : Checked Bytes :=
  match decodeCheckoutPath call.encoded_path with
  | none => return stored_path
  | some requested =>
    if existing.client_id ≠ call.client_id then return stored_path
    else do
      rejectIf (¬ sameReportedCheckout existing.reported_path requested) (.conflict call.project_name)
      if slash ∉ requested ∧ slash ∈ existing.reported_path then encodeCheckoutPath existing.reported_path
      else return stored_path

/-- The path a registration stores. -/
def storedPath (store : Store) (call : Call) : Checked Bytes := do
  rejectIf (¬ isValidProjectName call.project_name ∨ ¬ isValidClientId call.client_id
      ∨ ¬ isValidCheckoutPathToken call.encoded_path) (.invalidArgument "invalid checkout metadata")
  if call.replace then return call.encoded_path
  else do
    let existing ← loadCheckoutMetadata store call.project_name
    existing.foldlM (keepReported call) call.encoded_path

def publish (key : Key) (path_hex : Bytes) (epoch : UInt64) (store : Store) : Store :=
  Assoc.put key (recordText key.2 key.1 path_hex epoch) store

def registerCheckout (call : Call) (epoch : UInt64) : Prog Store CheckoutError Unit := do
  let stored_path ← .reads fun store => storedPath store call
  .modify (publish call.key stored_path epoch)

/-- Whether there was a report. -/
def forgetCheckout (project_name client_id : Bytes) : Prog Store CheckoutError Bool := do
  .ofExcept (rejectIf (¬ isValidProjectName project_name ∨ ¬ isValidClientId client_id)
    (.invalidArgument "invalid checkout identity"))
  let held ← .gets fun store => (Assoc.get (project_name, client_id) store).isSome
  .whenever held (.modify (Assoc.erase (project_name, client_id)))
  return held

end CkGit.Checkouts
