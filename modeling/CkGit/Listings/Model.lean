import CkGit.Control.Model
import CkGit.Responses.Model
import CkGit.Web.Router

/-!
The listings of the control channel. The daemon writes them (listResponse,
refsResponse, checkoutsResponse and releasesResponse in src/server/main.cpp); the
client reads them (fetchPublishedProjects and fetchRegisteredCheckouts in
src/client/main.cpp, src/common/ref_status.cpp, src/common/release_control.cpp).
-/
namespace CkGit.Listings
open CkGit.Base CkGit.Ci CkGit.Responses
open CkGit.Control (isSafeReportedPath decodeCheckoutPath)
open CkGit.Web (splitFirst)

def kMaximumControlRefs : Nat := 65536
def kMaximumControlReleases : Nat := 64
def kMaximumReleaseTagBytes : Nat := 128
def kRefListingBytes : Nat := 8 * 1024 * 1024

def isXDigit (character : UInt8) : Bool :=
  isDigit character || ('a'.toUInt8 ≤ character && character ≤ 'f'.toUInt8)
    || ('A'.toUInt8 ≤ character && character ≤ 'F'.toUInt8)

def isObjectId (object_id : Bytes) : Bool :=
  (object_id.length == 40 || object_id.length == 64) && object_id.all isXDigit

def isValidReleaseTag (tag : Bytes) : Bool :=
  !tag.isEmpty && tag.length ≤ kMaximumReleaseTagBytes && tag != ascii "." && tag != ascii ".."
    && tag.all isNameCharacter

structure RefTip where
  name : Bytes
  object_id : Bytes
  deriving DecidableEq

structure RegisteredCheckout where
  project_name : Bytes
  reported_path : Bytes
  deriving DecidableEq

structure CiReleaseRecord where
  tag : Bytes
  commit_id : Bytes
  created_epoch_seconds : UInt64
  notes : Bytes := []
  assets : List CiArtifactRecord := []

def isHeadOrTag (name : Bytes) : Bool :=
  (ascii "refs/heads/").isPrefixOf name || (ascii "refs/tags/").isPrefixOf name

/-- The count, then one line for each item while the response stays in bounds. -/
def bounded {α : Type} (message : String) (count : Nat) (items : List α) (line : α → Except String Bytes) :
    Except String Bytes :=
  items.foldlM
    (fun response item => do
      let text ← line item
      rejectIf (response.length + (text.length + 1) > kMaximumControlResponseBytes) message
      return response ++ (text ++ [newline]))
    (ascii "ok " ++ decimal count ++ [newline])

def hostedProject (filename : Bytes) : Option Bytes :=
  let suffix := ascii ".git"
  if filename.length > suffix.length ∧ suffix.isSuffixOf filename then
    let project := filename.take (filename.length - suffix.length)
    if isValidProjectName project then some project else none
  else none

/-- The projects among the directories below the repository root. -/
def listProjects (directories : List Bytes) : List Bytes :=
  (directories.filterMap hostedProject).insertionSort (· ≤ ·)

def listResponse (directories : List Bytes) : Except String Bytes :=
  let projects := listProjects directories
  bounded "project list exceeds control response limit" projects.length projects pure

def readListedRef (line : Bytes) : Except String RefTip :=
  match splitFirst tab line with
  | (_, none) => .error "repository returned malformed ref data"
  | (name, some object_id) => do
    rejectIf (name = [] ∨ object_id = []) "repository returned malformed ref data"
    rejectIf (¬ isHeadOrTag name ∨ ¬ isObjectId object_id ∨ ∃ c ∈ name, c ∈ ascii " \t\r\n")
      "repository returned unsafe ref data"
    return { name, object_id }

/-- What the daemon makes of the output of for-each-ref. -/
def refsResponse (output : Bytes) : Except String Bytes := do
  rejectIf (output.length > kRefListingBytes) "could not inspect repository refs"
  let refs ← ((output.splitOn newline).filter (!·.isEmpty)).mapM readListedRef
  bounded "ref list exceeds control response limit" refs.length refs fun ref =>
    return ref.name ++ [space] ++ ref.object_id

def encodeCheckoutPath (path : Bytes) : Except String Bytes := do
  rejectIf (¬ isSafeReportedPath path)
    "reported checkout path must be printable, valid UTF-8, and at most 256 bytes"
  return hexEncode path

def checkoutsResponse (checkouts : List RegisteredCheckout) : Except String Bytes :=
  bounded "checkout list exceeds control response limit" checkouts.length checkouts fun checkout => do
    let path ← encodeCheckoutPath checkout.reported_path
    return checkout.project_name ++ [space] ++ path

/-- The order of loadReleases: newest first, then by tag. -/
def newestFirst (a b : CiReleaseRecord) : Prop :=
  b.created_epoch_seconds < a.created_epoch_seconds
    ∨ (a.created_epoch_seconds = b.created_epoch_seconds ∧ b.tag ≤ a.tag)

instance : DecidableRel newestFirst := fun a b => by
  unfold newestFirst
  infer_instance

def sortAssets (release : CiReleaseRecord) : CiReleaseRecord :=
  { release with assets := release.assets.insertionSort fun a b => a.name ≤ b.name }

/-- loadReleases of the readable releases of a project. -/
def loadReleases (stored : List CiReleaseRecord) : List CiReleaseRecord :=
  ((stored.map sortAssets).insertionSort newestFirst).take 64

def releaseLine (release : CiReleaseRecord) : Bytes :=
  ascii "release " ++ release.tag ++ [space] ++ release.commit_id ++ [space]
    ++ decimal release.created_epoch_seconds.toNat

def checksumText (sha256 : Bytes) : Bytes := if sha256.isEmpty then dash else sha256

def assetLine (tag : Bytes) (asset : CiArtifactRecord) : Bytes :=
  ascii "asset " ++ tag ++ [space] ++ asset.name ++ [space] ++ decimal asset.bytes.toNat ++ [space]
    ++ checksumText asset.sha256

def releaseLines (release : CiReleaseRecord) : List Bytes :=
  releaseLine release :: release.assets.map (assetLine release.tag)

def releasesResponse (stored : List CiReleaseRecord) : Except String Bytes :=
  let releases := loadReleases stored
  bounded "release list exceeds control response limit" releases.length (releases.flatMap releaseLines) pure

/-- The framing both parsers of src/common demand. -/
def controlLines (kind : String) (response : Bytes) : Except String (List Bytes) := do
  rejectIf (response = [] ∨ response.length > kMaximumControlResponseBytes
      ∨ response.getLast? ≠ some newline ∨ carriage ∈ response ∨ 0 ∈ response)
    ("invalid " ++ kind ++ " response framing")
  return (response.splitOn newline).dropLast

/-- The number of a header line, as std::from_chars reads a std::size_t. -/
def headerCount (missing invalid : String) (limit : Nat) (line : Bytes) : Except String Nat :=
  match expectField (ascii "ok ") line with
  | none => .error missing
  | some text =>
    match parseDecimal (2 ^ 64 - 1) text with
    | none => .error (if text = [] then missing else invalid)
    | some count => if count > limit then .error invalid else .ok count

def isSafeRefName (name : Bytes) : Bool :=
  isHeadOrTag name && name.length ≤ 1024 && name.all fun character => 0x20 < character && character < 0x7f

def readRefRecord (line : Bytes) : Except String RefTip := do
  rejectIf (line = []) "refs response has an empty or unterminated record"
  match line.splitOn space with
  | [name, object_id] => do
    rejectIf (name = [] ∨ object_id = []) "refs response has an invalid ref record"
    rejectIf (¬ isSafeRefName name ∨ ¬ isObjectId object_id) "refs response has unsafe ref data"
    return { name, object_id }
  | _ => .error "refs response has an invalid ref record"

def parseRefsControlResponse (response : Bytes) : Except String (List RefTip) := do
  let lines ← controlLines "refs" response
  let expected ← headerCount "refs response has no valid ok count" "refs response has an invalid count"
    kMaximumControlRefs (lines.headD [])
  let refs ← (lines.drop 1).mapM readRefRecord
  rejectIf (refs.length ≠ expected) "refs response count does not match records"
  rejectIf (¬ (refs.map (·.name)).Nodup) "invalid or duplicate server ref data"
  return refs

def splitReleaseFields (line : Bytes) (expected_fields : Nat) : Except String (List Bytes) := do
  let fields := line.splitOn space
  rejectIf (fields.length ≠ expected_fields ∨ [] ∈ fields) "releases response has a malformed record"
  return fields

def parseReleaseCounter (what : String) (field : Bytes) : Except String UInt64 :=
  match parseDecimal (2 ^ 64 - 1) field with
  | some value => .ok (.ofNat value)
  | none => .error ("releases response has an invalid " ++ what)

def readReleaseChecksum (field : Bytes) : Except String Bytes := do
  if field = dash then return []
  else do
    rejectIf (¬ isValidSha256Hex field) "releases response has an invalid asset checksum"
    return field

/-- One record of the response, after the releases before it. -/
def readReleaseRecord (releases : List CiReleaseRecord) (line : Bytes) : Except String (List CiReleaseRecord) := do
  rejectIf (line = []) "releases response has an empty or unterminated record"
  if (ascii "release ").isPrefixOf line then do
    let fields ← splitReleaseFields line 4
    let tag := fields.getD 1 []
    let commit_id := fields.getD 2 []
    rejectIf (¬ isValidReleaseTag tag ∨ ¬ isValidObjectId commit_id)
      "releases response has an invalid release record"
    rejectIf (tag ∈ releases.map (·.tag)) "releases response repeats a release tag"
    let created_epoch_seconds ← parseReleaseCounter "release timestamp" (fields.getD 3 [])
    return releases ++ [{ tag, commit_id, created_epoch_seconds, notes := [], assets := [] }]
  else if (ascii "asset ").isPrefixOf line then
    match releases.getLast? with
    | none => .error "releases response has an asset before any release"
    | some current => do
      let fields ← splitReleaseFields line 5
      rejectIf (fields.getD 1 [] ≠ current.tag) "releases response asset tag does not match its release"
      let name := fields.getD 2 []
      rejectIf (¬ isValidCiArtifactName name) "releases response has an invalid asset name"
      let bytes ← parseReleaseCounter "asset size" (fields.getD 3 [])
      let sha256 ← readReleaseChecksum (fields.getD 4 [])
      let asset : CiArtifactRecord :=
        { name, bytes, sha256, created_epoch_seconds := 0, expires_epoch_seconds := 0, note := [] }
      return releases.dropLast ++ [{ current with assets := current.assets ++ [asset] }]
  else .error "releases response has an unrecognized record"

def parseReleasesControlResponse (response : Bytes) : Except String (List CiReleaseRecord) := do
  let lines ← controlLines "releases" response
  let expected ← headerCount "releases response has no valid ok count"
    "releases response has an invalid count" kMaximumControlReleases (lines.headD [])
  let releases ← (lines.drop 1).foldlM readReleaseRecord []
  rejectIf (releases.length ≠ expected) "releases response count does not match records"
  return releases

/-- The framing the client itself demands of a reply. -/
def replyLines (message : String) (reply : Bytes) : Except String (List Bytes) := do
  rejectIf (¬ (ascii "ok ").isPrefixOf reply ∨ reply.getLast? ≠ some newline) message
  return (reply.splitOn newline).dropLast

/-- The names of the reply in the order of the client's set. -/
def fetchPublishedProjects (reply : Bytes) : Except String (List Bytes) := do
  let lines ← replyLines "published project reply has invalid framing" reply
  let invalid := "published project reply has an invalid count"
  let expected ← headerCount invalid invalid kMaximumControlRefs (lines.headD [])
  let unsafe_names := "published project reply contains invalid or duplicate names"
  let projects := lines.drop 1
  rejectIf (¬ (∀ name ∈ projects, isValidProjectName name) ∨ ¬ projects.Nodup) unsafe_names
  rejectIf (projects.length ≠ expected) "published project reply count does not match records"
  return projects.insertionSort (· ≤ ·)

def readCheckoutRecord (line : Bytes) : Except String RegisteredCheckout :=
  match splitFirst space line with
  | (_, none) => .error "registered checkout reply has an invalid record"
  | (project_name, some token) =>
    match decodeCheckoutPath token with
    | some reported_path =>
      if isValidProjectName project_name ∧ reported_path ≠ [] then return { project_name, reported_path }
      else .error "registered checkout reply contains unsafe data"
    | none => .error "registered checkout reply contains unsafe data"

/-- One more checkout of the map; a project named twice is refused. -/
def addCheckout (checkouts : List RegisteredCheckout) (line : Bytes) : Except String (List RegisteredCheckout) := do
  let checkout ← readCheckoutRecord line
  rejectIf (checkout.project_name ∈ checkouts.map (·.project_name))
    "registered checkout reply contains unsafe data"
  return checkouts ++ [checkout]

/-- The checkouts of the reply in the order of the client's map. -/
def fetchRegisteredCheckouts (reply : Bytes) : Except String (List RegisteredCheckout) := do
  let lines ← replyLines "registered checkout reply has invalid framing" reply
  let invalid := "registered checkout reply has an invalid count"
  let expected ← headerCount invalid invalid kMaximumControlRefs (lines.headD [])
  let checkouts ← (lines.drop 1).foldlM addCheckout []
  rejectIf (checkouts.length ≠ expected) "registered checkout reply count does not match records"
  return checkouts.insertionSort fun a b => a.project_name ≤ b.project_name

end CkGit.Listings
