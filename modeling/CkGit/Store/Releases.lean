import CkGit.Artifacts.Model
import CkGit.Base.Assoc
import CkGit.Listings.Accepted
import CkGit.Store.Files

/-!
The published releases of the projects (src/common/ci_store.cpp): the records of
a release and of its assets, what writes and removes them, loadReleases, which lists
them, releasesResponse (src/server/main.cpp), which sends the listing, and
readCiReleaseAsset, which serves an asset's bundle. Whatever was written and removed
before, the listing has the releases written last and the readable ones among their
assets. A removal may stop half way. A directory that holds no file is not kept;
loadReleases skips it.
-/
namespace CkGit.Store.Releases
open CkGit.Base CkGit.Ci CkGit.Listings CkGit.Responses

def kMaximumReleaseNotesBytes : Nat := 8192
def kMaximumReleaseRecordBytes : Nat := 16 * 1024

def artifactLines (artifact : CiArtifactRecord) : List Bytes :=
  [ascii "schema_version=1",
    ascii "name=" ++ artifact.name,
    ascii "bytes=" ++ decimal artifact.bytes.toNat,
    ascii "sha256=" ++ artifact.sha256,
    ascii "created_epoch=" ++ decimal artifact.created_epoch_seconds.toNat,
    ascii "expires_epoch=" ++ decimal artifact.expires_epoch_seconds.toNat,
    ascii "note_hex=" ++ hexEncode artifact.note]

def serializeArtifact (artifact : CiArtifactRecord) : Bytes := framed (artifactLines artifact)

def parseArtifact (content : Bytes) : Except String CiArtifactRecord := do
  let lines ← frameLines content
  failIf (lines.length ≠ 7 ∨ lines.headD [] ≠ ascii "schema_version=1") "a CI artifact record has the wrong shape"
  let name ← field "name=" (lines.getD 1 [])
  let bytes ← parseEpoch (← field "bytes=" (lines.getD 2 []))
  let sha256 ← field "sha256=" (lines.getD 3 [])
  failIf (sha256 ≠ [] ∧ ¬ isValidSha256Hex sha256) "a CI artifact sha256 is malformed"
  let created_epoch_seconds ← parseEpoch (← field "created_epoch=" (lines.getD 4 []))
  let expires_epoch_seconds ← parseEpoch (← field "expires_epoch=" (lines.getD 5 []))
  let note ← fromHex (← field "note_hex=" (lines.getD 6 [])) Artifacts.kMaximumNoteBytes
  failIf (¬ isValidCiArtifactName name) "a CI artifact record has an invalid name"
  return { name, bytes, sha256, created_epoch_seconds, expires_epoch_seconds, note }

def recordLines (release : CiReleaseRecord) : List Bytes :=
  [ascii "schema_version=1",
    ascii "tag=" ++ release.tag,
    ascii "commit=" ++ release.commit_id,
    ascii "created_epoch=" ++ decimal release.created_epoch_seconds.toNat,
    ascii "notes_hex=" ++ hexEncode release.notes]

def serializeRelease (release : CiReleaseRecord) : Bytes := framed (recordLines release)

def parseRelease (content : Bytes) : Except String CiReleaseRecord := do
  let lines ← frameLines content
  failIf (lines.length ≠ 5 ∨ lines.headD [] ≠ ascii "schema_version=1") "a release record has the wrong shape"
  let tag ← field "tag=" (lines.getD 1 [])
  let commit_id ← field "commit=" (lines.getD 2 [])
  let created_epoch_seconds ← parseEpoch (← field "created_epoch=" (lines.getD 3 []))
  let notes ← fromHex (← field "notes_hex=" (lines.getD 4 [])) kMaximumReleaseNotesBytes
  failIf (¬ isValidReleaseTag tag ∨ ¬ isValidObjectId commit_id) "a release record contains invalid data"
  return { tag, commit_id, created_epoch_seconds, notes }

/-- A file under releases/. -/
@[ext] structure Place where
  project : Bytes
  tag : Bytes
  name : Bytes
  deriving DecidableEq

abbrev Files := List (Place × Bytes)

/-- Reading a file above the cap fails. -/
def readCappedAt (files : Files) (place : Place) (cap : Nat) : Except String (Option Bytes) :=
  match Assoc.get place files with
  | none => .ok none
  | some content => if content.length > cap then fail Store.Files.kUnsafeRecord else .ok (some content)

def releaseIni : Bytes := ini (ascii "release")

def tar (name : Bytes) : Bytes := name ++ ascii ".tar"

def writeCiReleaseArtifactRecord (project_name tag : Bytes) (record : CiArtifactRecord) (files : Files) :
    Except String Files := do
  failIf (¬ isValidProjectName project_name ∨ ¬ isValidReleaseTag tag ∨ ¬ isValidCiArtifactName record.name)
    "refusing to write an invalid release asset record"
  -- release.ini is the record of the release itself.
  failIf (record.name = ascii "release") "artifact name 'release' is reserved for the release record"
  failIf ((serializeArtifact record).length > Artifacts.kMaximumCiArtifactRecordBytes)
    "a release asset record exceeds its size limit"
  return Assoc.put ⟨project_name, tag, ini record.name⟩ (serializeArtifact record) files

def writeCiReleaseRecord (project_name : Bytes) (record : CiReleaseRecord) (files : Files) : Except String Files := do
  failIf (¬ isValidProjectName project_name ∨ ¬ isValidReleaseTag record.tag ∨ ¬ isValidObjectId record.commit_id)
    "refusing to write an invalid release record"
  failIf (record.notes.length > kMaximumReleaseNotesBytes) "release notes exceed the size limit"
  failIf ((serializeRelease record).length > kMaximumReleaseRecordBytes) "a release record exceeds its size limit"
  return Assoc.put ⟨project_name, record.tag, releaseIni⟩ (serializeRelease record) files

/-- commitCiRun renames the bundle of an asset into the directory. -/
def placeBundle (project_name tag name bundle : Bytes) (files : Files) : Files :=
  Assoc.put ⟨project_name, tag, tar name⟩ bundle files

def removeCiRelease (project_name tag : Bytes) (files : Files) : Except String Files := do
  failIf (¬ isValidProjectName project_name ∨ ¬ isValidReleaseTag tag) "invalid release for removal"
  return files.filter fun file => ¬ (file.1.project = project_name ∧ file.1.tag = tag)

/-- The releases of a project that removeProjectCi removes. -/
def removeReleases (project_name : Bytes) (files : Files) : Files :=
  files.filter fun file => file.1.project ≠ project_name

/-- The directories of a project. -/
def tagsOf (files : Files) (project_name : Bytes) : List Bytes :=
  ((files.filter fun file => file.1.project = project_name).map (·.1.tag)).dedup

def namesIn (files : Files) (project_name tag : Bytes) : List Bytes :=
  (files.filter fun file => file.1.project = project_name ∧ file.1.tag = tag).map (·.1.name)

variable (order : List Bytes → List Bytes)

/-- An asset whose record cannot be read is left out. -/
def loadAsset (files : Files) (project_name tag name : Bytes) : Option CiArtifactRecord :=
  match readCappedAt files ⟨project_name, tag, name⟩ Artifacts.kMaximumCiArtifactRecordBytes with
  | .ok (some asset) => (parseArtifact asset).toOption
  | _ => none

def loadAssets (files : Files) (project_name tag : Bytes) : List CiArtifactRecord :=
  (((order (namesIn files project_name tag)).filter fun name => isIni name ∧ name ≠ releaseIni).filterMap
    (loadAsset files project_name tag)).insertionSort fun a b => a.name ≤ b.name

/-- A release whose record cannot be read is left out. -/
def loadRelease (files : Files) (project_name tag : Bytes) : Option CiReleaseRecord :=
  if ¬ isValidReleaseTag tag then none
  else
    match readCappedAt files ⟨project_name, tag, releaseIni⟩ kMaximumReleaseRecordBytes with
    | .ok (some content) =>
      (parseRelease content).toOption.map fun release =>
        { release with assets := loadAssets order files project_name tag }
    | _ => none

/-- The releases of a project that can be read. -/
def stored (files : Files) (project_name : Bytes) : List CiReleaseRecord :=
  (order (tagsOf files project_name)).filterMap (loadRelease order files project_name)

def loadReleases (files : Files) (project_name : Bytes) (maximum : Nat) : List CiReleaseRecord :=
  if maximum = 0 ∨ ¬ isValidProjectName project_name then []
  else ((stored order files project_name).insertionSort newestFirst).take maximum

/-- The daemon's answer to the operation releases. -/
def releasesResponse (files : Files) (project_name : Bytes) : Except String Bytes :=
  let releases := loadReleases order files project_name 64
  bounded "release list exceeds control response limit" releases.length (releases.flatMap releaseLines) pure

def readCiReleaseAsset (files : Files) (project_name tag asset_name : Bytes) (cap : Nat) : Option Bytes :=
  if ¬ isValidProjectName project_name ∨ ¬ isValidReleaseTag tag ∨ ¬ isValidCiArtifactName asset_name then none
  else
    match readCappedAt files ⟨project_name, tag, releaseIni⟩ kMaximumReleaseRecordBytes with
    | .ok (some content) =>
      match parseRelease content with
      | .ok release =>
        if release.tag ≠ tag then none
        else (readCappedAt files ⟨project_name, tag, tar asset_name⟩ cap).toOption.join
      | .error _ => none
    | _ => none

inductive Event where
  | record (project_name : Bytes) (release : CiReleaseRecord)
  | asset (project_name tag : Bytes) (artifact : CiArtifactRecord)
  | bundle (project_name tag name content : Bytes)
  | remove (project_name tag : Bytes)
  | removeProject (project_name : Bytes)
  /-- One file that goes before a removal stops. -/
  | unlink (place : Place)

/-- A call that is refused changes nothing. -/
def orKept (files : Files) (result : Except String Files) : Files := result.toOption.getD files

def Event.after (event : Event) (files : Files) : Files :=
  match event with
  | .record project_name release => orKept files (writeCiReleaseRecord project_name release files)
  | .asset project_name tag artifact => orKept files (writeCiReleaseArtifactRecord project_name tag artifact files)
  | .bundle project_name tag name content => placeBundle project_name tag name content files
  | .remove project_name tag => orKept files (removeCiRelease project_name tag files)
  | .removeProject project_name => removeReleases project_name files
  | .unlink place => files.filter fun file => file.1 ≠ place

def replay (events : List Event) : Files := events.foldl (fun files event => event.after files) []

/-- What was published: the releases of each project by tag, and of each its assets and their bundles by name. -/
structure Shelf where
  release : Bytes → Bytes → Option CiReleaseRecord
  asset : Bytes → Bytes → Bytes → Option CiArtifactRecord
  bundle : Bytes → Bytes → Bytes → Option Bytes

def Shelf.empty : Shelf := ⟨fun _ _ => none, fun _ _ _ => none, fun _ _ _ => none⟩

def Shelf.putRelease (shelf : Shelf) (project_name : Bytes) (record : CiReleaseRecord) : Shelf :=
  { shelf with release := fun project tag =>
      if project = project_name ∧ tag = record.tag then some record else shelf.release project tag }

def Shelf.putAsset (shelf : Shelf) (project_name release_tag : Bytes) (record : CiArtifactRecord) : Shelf :=
  { shelf with asset := fun project tag name =>
      if project = project_name ∧ tag = release_tag ∧ name = record.name then some record
      else shelf.asset project tag name }

def Shelf.putBundle (shelf : Shelf) (project_name release_tag asset_name content : Bytes) : Shelf :=
  { shelf with bundle := fun project tag name =>
      if project = project_name ∧ tag = release_tag ∧ name = asset_name then some content
      else shelf.bundle project tag name }

/-- Only what is in these files stays. -/
def Shelf.keep (shelf : Shelf) (kept : Place → Bool) : Shelf where
  release project tag := if kept ⟨project, tag, releaseIni⟩ then shelf.release project tag else none
  asset project tag name := if kept ⟨project, tag, ini name⟩ then shelf.asset project tag name else none
  bundle project tag name := if kept ⟨project, tag, tar name⟩ then shelf.bundle project tag name else none

structure AcceptedRelease (project_name : Bytes) (release : CiReleaseRecord) : Prop where
  project : isValidProjectName project_name
  tag : isValidReleaseTag release.tag
  commit : isValidObjectId release.commit_id
  notes : release.notes.length ≤ kMaximumReleaseNotesBytes
  fits : (serializeRelease release).length ≤ kMaximumReleaseRecordBytes

structure AcceptedAsset (project_name tag : Bytes) (artifact : CiArtifactRecord) : Prop where
  project : isValidProjectName project_name
  tag : isValidReleaseTag tag
  name : isValidCiArtifactName artifact.name
  free : artifact.name ≠ ascii "release"
  fits : (serializeArtifact artifact).length ≤ Artifacts.kMaximumCiArtifactRecordBytes

open Classical in
/-- The last write that was accepted counts. -/
noncomputable def Shelf.after (shelf : Shelf) (event : Event) : Shelf :=
  match event with
  | .record project_name release =>
    if AcceptedRelease project_name release then shelf.putRelease project_name release else shelf
  | .asset project_name tag artifact =>
    if AcceptedAsset project_name tag artifact then shelf.putAsset project_name tag artifact else shelf
  | .bundle project_name tag name content => shelf.putBundle project_name tag name content
  | .remove project_name tag =>
    if isValidProjectName project_name ∧ isValidReleaseTag tag then
      shelf.keep fun place => ¬ (place.project = project_name ∧ place.tag = tag)
    else shelf
  | .removeProject project_name => shelf.keep fun place => place.project ≠ project_name
  | .unlink place => shelf.keep fun other => other ≠ place

noncomputable def published (events : List Event) : Shelf := events.foldl Shelf.after Shelf.empty

/-- What a reader requires of an asset beyond what its writer does. -/
def Readable (artifact : CiArtifactRecord) : Prop :=
  (artifact.sha256 = [] ∨ isValidSha256Hex artifact.sha256) ∧ artifact.note.length ≤ Artifacts.kMaximumNoteBytes

theorem fromHex_encoded {bytes read : Bytes} {cap : Nat} :
    fromHex (hexEncode bytes) cap = .ok read ↔ read = bytes ∧ bytes.length ≤ cap := by
  rw [fromHex, orFail_ok]
  constructor
  · intro decoded
    obtain rfl := hexDecode_same decoded
    exact ⟨rfl, hexDecode_length decoded⟩
  · rintro ⟨rfl, short⟩
    exact hexDecode_hexEncode short

theorem artifactLines_clean {artifact : CiArtifactRecord} (name : isValidCiArtifactName artifact.name)
    (digest : newline ∉ artifact.sha256) : ∀ line ∈ artifactLines artifact, newline ∉ line := by
  have digits : ∀ n : UInt64, newline ∉ decimal n.toNat := fun n => decimal_avoids (by decide)
  have named : newline ∉ artifact.name := isValidCiArtifactName_avoids name (by decide)
  have noted := (hexEncode_avoids artifact.note).1
  simp only [artifactLines, List.forall_mem_cons, List.mem_append, not_or, named, digits, digest, noted, and_true,
    not_false_eq_true]
  decide

/-- An asset's record reads back as it was written, or not at all. -/
theorem parseArtifact_serialized {artifact read : CiArtifactRecord} (name : isValidCiArtifactName artifact.name) :
    parseArtifact (serializeArtifact artifact) = .ok read ↔ read = artifact ∧ Readable artifact := by
  constructor
  · intro parsed
    simp only [parseArtifact, bind_ok, pure_ok, failIf, rejectIf_ok, not_or, not_not] at parsed
    obtain ⟨lines, framing, _, ⟨count, _⟩, parsed⟩ := parsed
    obtain ⟨rfl, _⟩ := frame_lines (orFail_ok.mp framing) (count.trans rfl)
    simp only [artifactLines, List.getD_cons_succ, List.getD_cons_zero, field_append, parseEpoch_decimal,
      Except.ok.injEq, exists_eq_left', fromHex_encoded] at parsed
    obtain ⟨_, digest, note, ⟨rfl, short⟩, _, _, rfl⟩ := parsed
    exact ⟨rfl, by tauto, short⟩
  · rintro ⟨rfl, digest, short⟩
    have unbroken : newline ∉ read.sha256 := by
      rcases digest with none | valid
      · rw [none]
        exact List.not_mem_nil
      · simp only [isValidSha256Hex, Bool.and_eq_true] at valid
        exact isLowercaseHex_avoids valid.2
    have framing := frameLines_framed (List.cons_ne_nil _ _) (artifactLines_clean name unbroken)
    simp only [parseArtifact, serializeArtifact, bind_ok, pure_ok, failIf, rejectIf_ok, not_or, not_not]
    refine ⟨_, framing, (), ⟨rfl, rfl⟩, ?_⟩
    simp only [List.getD_cons_succ, List.getD_cons_zero, field_append, parseEpoch_decimal,
      Except.ok.injEq, exists_eq_left', fromHex_encoded]
    exact ⟨(), by tauto, read.note, ⟨rfl, short⟩, (), name, rfl⟩

theorem isValidReleaseTag_avoids {tag : Bytes} (h : isValidReleaseTag tag) : newline ∉ tag := by
  simp only [isValidReleaseTag, Bool.and_eq_true] at h
  exact not_mem_of_all h.2 (by decide)

/-- A release that was accepted reads back without its assets. -/
theorem parseRelease_serialized {project_name : Bytes} {release : CiReleaseRecord}
    (accepted : AcceptedRelease project_name release) :
    parseRelease (serializeRelease release) = .ok { release with assets := [] } := by
  have clean : ∀ line ∈ recordLines release, newline ∉ line := by
    have digits : newline ∉ decimal release.created_epoch_seconds.toNat := decimal_avoids (by decide)
    have tag := isValidReleaseTag_avoids accepted.tag
    have commit := isValidObjectId_avoids accepted.commit
    have notes := (hexEncode_avoids release.notes).1
    simp only [recordLines, List.forall_mem_cons, List.mem_append, not_or, tag, commit, digits, notes, and_true,
      not_false_eq_true]
    decide
  have framing := frameLines_framed (List.cons_ne_nil _ _) clean
  simp only [parseRelease, serializeRelease, bind_ok, pure_ok, failIf, rejectIf_ok, not_or, not_not]
  refine ⟨_, framing, (), ⟨rfl, rfl⟩, ?_⟩
  simp only [List.getD_cons_succ, List.getD_cons_zero, field_append, parseEpoch_decimal,
    Except.ok.injEq, exists_eq_left', fromHex_encoded]
  exact ⟨release.notes, ⟨rfl, accepted.notes⟩, (), ⟨accepted.tag, accepted.commit⟩, rfl⟩

/-- The files say what was published, each under its own name. -/
structure Shows (shelf : Shelf) (files : Files) : Prop where
  release : ∀ project tag,
    Assoc.get ⟨project, tag, releaseIni⟩ files = (shelf.release project tag).map serializeRelease
  asset : ∀ project tag name, isValidCiArtifactName name → name ≠ ascii "release" →
    Assoc.get ⟨project, tag, ini name⟩ files = (shelf.asset project tag name).map serializeArtifact
  bundle : ∀ project tag name, Assoc.get ⟨project, tag, tar name⟩ files = shelf.bundle project tag name
  named : ∀ place ∈ files.map Prod.fst, isIni place.name → place.name = releaseIni
    ∨ ∃ name, isValidCiArtifactName name ∧ name ≠ ascii "release" ∧ place.name = ini name
  once : (files.map Prod.fst).Nodup
  releases : ∀ project tag release, shelf.release project tag = some release →
    release.tag = tag ∧ AcceptedRelease project release
  assets : ∀ project tag name artifact, shelf.asset project tag name = some artifact →
    artifact.name = name ∧ AcceptedAsset project tag artifact

variable {shelf : Shelf} {files : Files}

theorem shows_empty : Shows Shelf.empty [] where
  release _ _ := rfl
  asset _ _ _ _ _ := rfl
  bundle _ _ _ := rfl
  named _ inside := by cases inside
  once := List.nodup_nil
  releases _ _ _ published := by cases published
  assets _ _ _ _ published := by cases published

theorem ini_release {name : Bytes} (free : name ≠ ascii "release") : ini name ≠ releaseIni :=
  fun same => free (ini_injective same)

theorem tar_injective {a b : Bytes} (same : tar a = tar b) : a = b := List.append_cancel_right same

theorem not_isIni_tar (name : Bytes) : ¬ isIni (tar name) := by
  intro suffix
  obtain ⟨front, same⟩ := List.isSuffixOf_iff_suffix.mp suffix
  have ends := List.append_inj_right' same (by decide)
  revert ends
  decide

theorem isIni_ini (name : Bytes) : isIni (ini name) := by simp [isIni, ini]

theorem ini_ne_tar {name other : Bytes} : ini name ≠ tar other :=
  fun same => not_isIni_tar other (same ▸ isIni_ini name)

theorem mem_put {key place : Place} {content : Bytes} (inside : place ∈ (Assoc.put key content files).map Prod.fst) :
    place = key ∨ place ∈ files.map Prod.fst := by
  rcases List.mem_cons.mp inside with same | later
  · exact .inl same
  · exact .inr ((List.filter_sublist.map Prod.fst).subset later)

theorem once_put (once : (files.map Prod.fst).Nodup) (key : Place) (content : Bytes) :
    ((Assoc.put key content files).map Prod.fst).Nodup := Assoc.nodup_set once key (some content)

theorem get_filter_places (keep : Place → Bool) (files : Files) (place : Place) :
    Assoc.get place (files.filter fun file => keep file.1) = if keep place then Assoc.get place files else none := by
  by_cases kept : keep place
  · rw [if_pos kept]
    exact Assoc.get_filter fun _ => kept
  · rw [if_neg kept]
    apply Assoc.get_absent
    intro inside
    obtain ⟨file, member, rfl⟩ := List.mem_map.mp inside
    exact kept (List.mem_filter.mp member).2

theorem Shows.put_bundle (h : Shows shelf files) (project_name tag name content : Bytes) :
    Shows (shelf.putBundle project_name tag name content) (placeBundle project_name tag name content files) := by
  unfold placeBundle
  refine { h with release := ?_, asset := ?_, bundle := ?_, named := ?_, once := once_put h.once _ _ }
  · intro project other
    rw [Assoc.get_put, if_neg (by simp [releaseIni, ini_ne_tar])]
    exact h.release project other
  · intro project other asset valid free
    rw [Assoc.get_put, if_neg (by simp [ini_ne_tar])]
    exact h.asset project other asset valid free
  · intro project other asset
    have names : tar asset = tar name ↔ asset = name := ⟨tar_injective, congrArg tar⟩
    rw [Assoc.get_put]
    simp only [Place.mk.injEq, names, h.bundle, Shelf.putBundle]
  · intro place inside suffix
    rcases mem_put inside with rfl | known
    · exact absurd suffix (not_isIni_tar name)
    · exact h.named place known suffix

theorem Shows.put_release (h : Shows shelf files) {project_name : Bytes} {release : CiReleaseRecord}
    (accepted : AcceptedRelease project_name release) : Shows (shelf.putRelease project_name release)
      (Assoc.put ⟨project_name, release.tag, releaseIni⟩ (serializeRelease release) files) := by
  unfold Shelf.putRelease
  refine { h with
    release := ?_, asset := ?_, bundle := ?_, named := ?_, once := once_put h.once _ _, releases := ?_ }
  · intro project tag
    rw [Assoc.get_put]
    by_cases here : project = project_name ∧ tag = release.tag
    · simp [here]
    · simp only [Place.mk.injEq, and_true, if_neg here]
      exact h.release project tag
  · intro project tag name valid free
    rw [Assoc.get_put, if_neg (by simp [ini_release free])]
    exact h.asset project tag name valid free
  · intro project tag name
    rw [Assoc.get_put, if_neg (by simp [releaseIni, ini_ne_tar.symm])]
    exact h.bundle project tag name
  · intro place inside suffix
    rcases mem_put inside with rfl | known
    · exact .inl rfl
    · exact h.named place known suffix
  · intro project tag found published
    by_cases here : project = project_name ∧ tag = release.tag
    · simp only [here, and_self, if_true, Option.some.injEq] at published
      subst published
      exact ⟨here.2.symm, here.1 ▸ accepted⟩
    · simp only [if_neg here] at published
      exact h.releases project tag found published

theorem Shows.put_asset (h : Shows shelf files) {project_name tag : Bytes} {artifact : CiArtifactRecord}
    (accepted : AcceptedAsset project_name tag artifact) : Shows (shelf.putAsset project_name tag artifact)
      (Assoc.put ⟨project_name, tag, ini artifact.name⟩ (serializeArtifact artifact) files) := by
  unfold Shelf.putAsset
  refine { h with
    release := ?_, asset := ?_, bundle := ?_, named := ?_, once := once_put h.once _ _, assets := ?_ }
  · intro project other
    rw [Assoc.get_put, if_neg (by simp [(ini_release accepted.free).symm])]
    exact h.release project other
  · intro project other name valid free
    rw [Assoc.get_put]
    have names : ini name = ini artifact.name ↔ name = artifact.name := ⟨ini_injective, congrArg ini⟩
    by_cases here : project = project_name ∧ other = tag ∧ name = artifact.name
    · simp [here]
    · simp only [Place.mk.injEq, names, if_neg here]
      exact h.asset project other name valid free
  · intro project other name
    rw [Assoc.get_put, if_neg (by simp [ini_ne_tar.symm])]
    exact h.bundle project other name
  · intro place inside suffix
    rcases mem_put inside with rfl | known
    · exact .inr ⟨artifact.name, accepted.name, accepted.free, rfl⟩
    · exact h.named place known suffix
  · intro project other name found published
    by_cases here : project = project_name ∧ other = tag ∧ name = artifact.name
    · simp only [here, and_self, if_true, Option.some.injEq] at published
      subst published
      obtain ⟨rfl, rfl, rfl⟩ := here
      exact ⟨rfl, accepted⟩
    · simp only [if_neg here] at published
      exact h.assets project other name found published

theorem Shows.keep (h : Shows shelf files) (kept : Place → Bool) :
    Shows (shelf.keep kept) (files.filter fun file => kept file.1) := by
  have found := get_filter_places kept files
  refine ⟨?_, ?_, ?_, ?_, h.once.sublist (List.filter_sublist.map _), ?_, ?_⟩
  · intro project tag
    rw [found, Shelf.keep]
    by_cases here : kept ⟨project, tag, releaseIni⟩ = true <;> simp [here, h.release]
  · intro project tag name valid free
    rw [found, Shelf.keep]
    by_cases here : kept ⟨project, tag, ini name⟩ = true <;> simp [here, h.asset project tag name valid free]
  · intro project tag name
    rw [found, Shelf.keep]
    simp only [h.bundle]
  · intro place inside
    exact h.named place ((List.filter_sublist.map Prod.fst).subset inside)
  · intro project tag release published
    obtain ⟨_, published⟩ := Option.ite_none_right_eq_some.mp published
    exact h.releases project tag release published
  · intro project tag name artifact published
    obtain ⟨_, published⟩ := Option.ite_none_right_eq_some.mp published
    exact h.assets project tag name artifact published

theorem writeCiReleaseRecord_ok {project_name : Bytes} {release : CiReleaseRecord} {after : Files} :
    writeCiReleaseRecord project_name release files = .ok after ↔ AcceptedRelease project_name release
      ∧ after = Assoc.put ⟨project_name, release.tag, releaseIni⟩ (serializeRelease release) files := by
  simp only [writeCiReleaseRecord, bind_ok, pure_ok, failIf, rejectIf_ok, not_or, not_not, not_lt]
  constructor
  · rintro ⟨_, ⟨project, tag, commit⟩, _, notes, _, fits, rfl⟩
    exact ⟨⟨project, tag, commit, notes, fits⟩, rfl⟩
  · rintro ⟨accepted, rfl⟩
    exact ⟨(), ⟨accepted.project, accepted.tag, accepted.commit⟩, (), accepted.notes, (), accepted.fits, rfl⟩

theorem writeCiReleaseArtifactRecord_ok {project_name tag : Bytes} {artifact : CiArtifactRecord} {after : Files} :
    writeCiReleaseArtifactRecord project_name tag artifact files = .ok after ↔ AcceptedAsset project_name tag artifact
      ∧ after = Assoc.put ⟨project_name, tag, ini artifact.name⟩ (serializeArtifact artifact) files := by
  simp only [writeCiReleaseArtifactRecord, bind_ok, pure_ok, failIf, rejectIf_ok, not_or, not_not, not_lt]
  constructor
  · rintro ⟨_, ⟨project, tag, name⟩, _, free, _, fits, rfl⟩
    exact ⟨⟨project, tag, name, free, fits⟩, rfl⟩
  · rintro ⟨accepted, rfl⟩
    exact ⟨(), ⟨accepted.project, accepted.tag, accepted.name⟩, (), accepted.free, (), accepted.fits, rfl⟩

theorem removeCiRelease_ok {project_name tag : Bytes} {after : Files} :
    removeCiRelease project_name tag files = .ok after ↔ (isValidProjectName project_name ∧ isValidReleaseTag tag)
      ∧ after = files.filter fun file => ¬ (file.1.project = project_name ∧ file.1.tag = tag) := by
  simp only [removeCiRelease, bind_ok, pure_ok, failIf, rejectIf_ok, not_or, not_not]
  constructor
  · rintro ⟨_, valid, rfl⟩
    exact ⟨valid, rfl⟩
  · rintro ⟨valid, rfl⟩
    exact ⟨(), valid, rfl⟩

theorem orKept_accepted {result : Except String Files} {after : Files} (accepted : result = .ok after) :
    orKept files result = after := by
  rw [accepted]
  rfl

open Classical in
/-- What a call leaves, known from when it is accepted. -/
theorem orKept_eq {result : Except String Files} {condition : Prop} {target : Files}
    (ok : ∀ after, result = .ok after ↔ condition ∧ after = target) :
    orKept files result = if condition then target else files := by
  by_cases holds : condition
  · rw [if_pos holds, orKept_accepted ((ok target).mpr ⟨holds, rfl⟩)]
  · rw [if_neg holds]
    cases result with
    | ok after => exact absurd ((ok after).mp rfl).1 holds
    | error error => rfl

theorem Shows.after (h : Shows shelf files) (event : Event) : Shows (shelf.after event) (event.after files) := by
  cases event with
  | record project_name release =>
    rw [Shelf.after, Event.after, orKept_eq fun _ => writeCiReleaseRecord_ok]
    split
    · next accepted => exact h.put_release accepted
    · exact h
  | asset project_name tag artifact =>
    rw [Shelf.after, Event.after, orKept_eq fun _ => writeCiReleaseArtifactRecord_ok]
    split
    · next accepted => exact h.put_asset accepted
    · exact h
  | bundle project_name tag name content => exact h.put_bundle project_name tag name content
  | remove project_name tag =>
    rw [Shelf.after, Event.after, orKept_eq fun _ => removeCiRelease_ok]
    split
    · exact h.keep fun place => ¬ (place.project = project_name ∧ place.tag = tag)
    · exact h
  | removeProject project_name => exact h.keep fun place => place.project ≠ project_name
  | unlink place => exact h.keep fun other => other ≠ place

theorem shows_published (events : List Event) : Shows (published events) (replay events) := by
  have run : ∀ shelf files, Shows shelf files →
      Shows (events.foldl Shelf.after shelf) (events.foldl (fun files event => event.after files) files) := by
    induction events with
    | nil => exact fun _ _ h => h
    | cons event rest ih => exact fun _ _ h => ih _ _ (h.after event)
  exact run _ _ shows_empty

theorem mem_tagsOf {project_name tag : Bytes} :
    tag ∈ tagsOf files project_name ↔ ∃ name, (⟨project_name, tag, name⟩ : Place) ∈ files.map Prod.fst := by
  simp only [tagsOf, List.mem_dedup, List.mem_map, List.mem_filter, decide_eq_true_eq]
  constructor
  · rintro ⟨⟨⟨project, other, name⟩, content⟩, ⟨inside, rfl⟩, rfl⟩
    exact ⟨name, _, inside, rfl⟩
  · rintro ⟨name, file, inside, same⟩
    exact ⟨file, ⟨inside, by rw [same]⟩, by rw [same]⟩

theorem mem_namesIn {project_name tag name : Bytes} :
    name ∈ namesIn files project_name tag ↔ (⟨project_name, tag, name⟩ : Place) ∈ files.map Prod.fst := by
  simp only [namesIn, List.mem_map, List.mem_filter, decide_eq_true_eq]
  constructor
  · rintro ⟨⟨⟨project, other, name⟩, content⟩, ⟨inside, rfl, rfl⟩, rfl⟩
    exact ⟨_, inside, rfl⟩
  · rintro ⟨file, inside, same⟩
    exact ⟨file, ⟨inside, by simp [same]⟩, by rw [same]⟩

theorem mem_of_some {place : Place} {content : Bytes} (held : Assoc.get place files = some content) :
    place ∈ files.map Prod.fst := List.mem_map.mpr ⟨_, Assoc.mem_of_get held, rfl⟩

theorem namesIn_once (once : (files.map Prod.fst).Nodup) (project_name tag : Bytes) :
    (namesIn files project_name tag).Nodup := by
  have places : ((files.filter fun file => file.1.project = project_name ∧ file.1.tag = tag).map Prod.fst).Nodup :=
    once.sublist (List.filter_sublist.map _)
  have named := places.map_on (f := Place.name) ?_
  · rwa [List.map_map] at named
  · intro a first b second same
    obtain ⟨_, inside, rfl⟩ := List.mem_map.mp first
    obtain ⟨_, among, rfl⟩ := List.mem_map.mp second
    have here := of_decide_eq_true (List.mem_filter.mp inside).2
    have there := of_decide_eq_true (List.mem_filter.mp among).2
    exact Place.ext (here.1.trans there.1.symm) (here.2.trans there.2.symm) same

theorem sorted_insertionSort {α : Type} {before : α → α → Prop} [DecidableRel before]
    (trans : ∀ a b c, before a b → before b c → before a c) (total : ∀ a b, before a b ∨ before b a) (items : List α) :
    (items.insertionSort before).Pairwise before :=
  have : IsTrans α before := ⟨trans⟩
  have : Std.Total before := ⟨total⟩
  List.pairwise_insertionSort before items

/-- A sorted list of different things is in strict order. -/
theorem strict_of_sorted {α : Type} {before apart strict : α → α → Prop} (symm : ∀ {a b}, apart a b → apart b a)
    (both : ∀ {a b}, before a b → apart a b → strict a b) {items sorted : List α} (perm : sorted.Perm items)
    (ordered : sorted.Pairwise before) (distinct : items.Pairwise apart) : sorted.Pairwise strict := by
  have still := (perm.pairwise_iff symm).mpr distinct
  exact (ordered.and still).imp fun h => both h.1 h.2

/-- A list in strict order is known by what it contains. -/
theorem eq_of_strict {α : Type} {strict : α → α → Prop} (asymm : ∀ a b, strict a b → ¬ strict b a)
    {first second : List α} (up : first.Pairwise strict) (also : second.Pairwise strict)
    (same : ∀ a, a ∈ first ↔ a ∈ second) : first = second := by
  have once : ∀ {items : List α}, items.Pairwise strict → items.Nodup := by
    intro items ordered
    apply ordered.imp
    intro a b before equal
    exact asymm a b before (equal ▸ before)
  have perm := (List.perm_ext_iff_of_nodup (once up) (once also)).mpr same
  exact perm.eq_of_pairwise (fun a b _ _ before after => absurd after (asymm a b before)) up also

/-- What is loaded from different names differs, when it tells its name. -/
theorem loaded_apart {ν κ α : Type} {names : List ν} (once : names.Nodup) {load : ν → Option α} {key : α → κ}
    {spelled : κ → ν} (named : ∀ name ∈ names, ∀ a, load name = some a → name = spelled (key a)) :
    (names.filterMap load).Pairwise fun a b => key a ≠ key b := by
  apply List.pairwise_filterMap.mpr
  apply once.imp_of_mem
  intro first second inside among different a loaded b found same
  apply different
  rw [named first inside a loaded, same, ← named second among b found]

theorem loadAsset_iff (h : Shows shelf files) {project_name tag name : Bytes} {artifact : CiArtifactRecord}
    (valid : isValidCiArtifactName name) (free : name ≠ ascii "release") :
    loadAsset files project_name tag (ini name) = some artifact
      ↔ shelf.asset project_name tag name = some artifact ∧ Readable artifact := by
  unfold loadAsset readCappedAt
  rw [h.asset project_name tag name valid free]
  cases found : shelf.asset project_name tag name with
  | none => simp
  | some published =>
    obtain ⟨named, accepted⟩ := h.assets project_name tag name published found
    have parsed := @parseArtifact_serialized published artifact accepted.name
    simp only [Option.map_some, if_neg (Nat.not_lt.mpr accepted.fits), Option.some.injEq]
    constructor
    · intro loaded
      obtain ⟨rfl, readable⟩ := parsed.mp (by
        cases outcome : parseArtifact (serializeArtifact published) with
        | ok read =>
          rw [outcome] at loaded
          exact congrArg Except.ok (Option.some.inj loaded)
        | error error =>
          rw [outcome] at loaded
          cases loaded)
      exact ⟨rfl, readable⟩
    · rintro ⟨rfl, readable⟩
      rw [parsed.mpr ⟨rfl, readable⟩]
      rfl

/-- The names that loadReleases reads as assets are those of asset records. -/
theorem asset_names (h : Shows shelf files) (fair : ∀ names, (order names).Perm names) {project_name tag name : Bytes}
    (inside : name ∈ (order (namesIn files project_name tag)).filter fun name => isIni name ∧ name ≠ releaseIni) :
    ∃ asset, isValidCiArtifactName asset ∧ asset ≠ ascii "release" ∧ name = ini asset := by
  obtain ⟨listed, sort⟩ := List.mem_filter.mp inside
  obtain ⟨suffix, other⟩ := of_decide_eq_true sort
  exact (h.named _ (mem_namesIn.mp ((fair _).mem_iff.mp listed)) suffix).resolve_left other

theorem name_lt {a b : Bytes} (upward : a ≤ b) (different : a ≠ b) : a < b := by
  by_contra more
  exact different (List.le_antisymm upward (List.not_lt.mp more))

theorem loadAssets_listed (h : Shows shelf files) (fair : ∀ names, (order names).Perm names)
    (project_name tag : Bytes) :
    (loadAssets order files project_name tag).Pairwise (fun a b => a.name < b.name)
      ∧ ∀ artifact, artifact ∈ loadAssets order files project_name tag
        ↔ shelf.asset project_name tag artifact.name = some artifact ∧ Readable artifact := by
  have once : ((order (namesIn files project_name tag)).filter fun name => isIni name ∧ name ≠ releaseIni).Nodup :=
    ((fair _).nodup_iff.mpr (namesIn_once h.once project_name tag)).filter _
  have named : ∀ name ∈ (order (namesIn files project_name tag)).filter fun name => isIni name ∧ name ≠ releaseIni,
      ∀ artifact, loadAsset files project_name tag name = some artifact → name = ini artifact.name := by
    intro name inside artifact loaded
    obtain ⟨asset, valid, free, rfl⟩ := asset_names order h fair inside
    rw [(h.assets _ _ _ _ ((loadAsset_iff h valid free).mp loaded).1).1]
  refine ⟨?_, ?_⟩
  · have ordered : ∀ items : List CiArtifactRecord,
        (items.insertionSort fun a b => a.name ≤ b.name).Pairwise fun a b => a.name ≤ b.name :=
      sorted_insertionSort (fun _ _ _ => List.le_trans) fun a b => List.le_total a.name b.name
    exact strict_of_sorted Ne.symm name_lt (List.perm_insertionSort _ _) (ordered _) (loaded_apart once named)
  · intro artifact
    rw [loadAssets, List.mem_insertionSort, List.mem_filterMap]
    constructor
    · rintro ⟨name, inside, loaded⟩
      obtain ⟨asset, valid, free, rfl⟩ := asset_names order h fair inside
      obtain ⟨published, readable⟩ := (loadAsset_iff h valid free).mp loaded
      rw [(h.assets _ _ _ _ published).1]
      exact ⟨published, readable⟩
    · rintro ⟨published, readable⟩
      obtain ⟨_, accepted⟩ := h.assets _ _ _ _ published
      refine ⟨ini artifact.name, ?_, (loadAsset_iff h accepted.name accepted.free).mpr ⟨published, readable⟩⟩
      have held := h.asset project_name tag artifact.name accepted.name accepted.free
      rw [published] at held
      refine List.mem_filter.mpr ⟨(fair _).mem_iff.mpr (mem_namesIn.mpr (mem_of_some held)), ?_⟩
      exact decide_eq_true ⟨isIni_ini _, ini_release accepted.free⟩

theorem loadRelease_iff (h : Shows shelf files) {project_name tag : Bytes} {release : CiReleaseRecord} :
    loadRelease order files project_name tag = some release ↔ ∃ record, shelf.release project_name tag = some record
      ∧ release = { record with assets := loadAssets order files project_name tag } := by
  unfold loadRelease readCappedAt
  rw [h.release project_name tag]
  cases found : shelf.release project_name tag with
  | none => simp
  | some record =>
    obtain ⟨rfl, accepted⟩ := h.releases project_name tag record found
    have valid : ¬ ¬ isValidReleaseTag record.tag := not_not.mpr accepted.tag
    simp only [if_neg valid, Option.map_some, if_neg (Nat.not_lt.mpr accepted.fits), parseRelease_serialized accepted,
      Except.toOption, Option.some.injEq, exists_eq_left']
    exact eq_comm

/-- The order of the listing: by date, newest first, then by tag. -/
def Newer (a b : CiReleaseRecord) : Prop :=
  b.created_epoch_seconds < a.created_epoch_seconds
    ∨ a.created_epoch_seconds = b.created_epoch_seconds ∧ b.tag < a.tag

theorem newestFirst_trans (a b c : CiReleaseRecord) (first : newestFirst a b) (second : newestFirst b c) :
    newestFirst a c := by
  rcases first with first | ⟨same, first⟩
  · rcases second with second | ⟨equal, second⟩
    · exact .inl (UInt64.lt_trans second first)
    · exact .inl (equal ▸ first)
  · rcases second with second | ⟨equal, second⟩
    · exact .inl (same ▸ second)
    · exact .inr ⟨same.trans equal, List.le_trans second first⟩

theorem newestFirst_total (a b : CiReleaseRecord) : newestFirst a b ∨ newestFirst b a := by
  by_cases same : a.created_epoch_seconds = b.created_epoch_seconds
  · rcases List.le_total a.tag b.tag with less | more
    · exact .inr (.inr ⟨same.symm, less⟩)
    · exact .inl (.inr ⟨same, more⟩)
  · rcases UInt64.lt_or_lt_of_ne same with older | newer
    · exact .inr (.inl older)
    · exact .inl (.inl newer)

theorem newer_of_first {a b : CiReleaseRecord} (first : newestFirst a b) (different : a.tag ≠ b.tag) : Newer a b := by
  rcases first with newer | ⟨same, above⟩
  · exact .inl newer
  · exact .inr ⟨same, name_lt above different.symm⟩

theorem loadRelease_tag (h : Shows shelf files) {project_name tag : Bytes} {release : CiReleaseRecord}
    (loaded : loadRelease order files project_name tag = some release) : tag = release.tag := by
  obtain ⟨record, published, rfl⟩ := (loadRelease_iff order h).mp loaded
  exact (h.releases project_name tag record published).1.symm

theorem stored_apart (h : Shows shelf files) (fair : ∀ names, (order names).Perm names) (project_name : Bytes) :
    (stored order files project_name).Pairwise fun a b => a.tag ≠ b.tag := by
  have once : (order (tagsOf files project_name)).Nodup := (fair _).nodup_iff.mpr (List.nodup_dedup _)
  have tagged : ∀ tag ∈ order (tagsOf files project_name), ∀ release,
      loadRelease order files project_name tag = some release → tag = id release.tag :=
    fun tag _ release loaded => loadRelease_tag order h loaded
  exact loaded_apart once tagged

theorem mem_stored (h : Shows shelf files) (fair : ∀ names, (order names).Perm names) {project_name : Bytes}
    {release : CiReleaseRecord} : release ∈ stored order files project_name
      ↔ ∃ record, shelf.release project_name release.tag = some record
        ∧ release = { record with assets := loadAssets order files project_name release.tag } := by
  rw [stored, List.mem_filterMap]
  constructor
  · intro found
    obtain ⟨tag, _, loaded⟩ := found
    obtain rfl := loadRelease_tag order h loaded
    exact (loadRelease_iff order h).mp loaded
  · intro found
    refine ⟨release.tag, ?_, (loadRelease_iff order h).mpr found⟩
    obtain ⟨record, published, _⟩ := found
    have held := h.release project_name release.tag
    rw [published] at held
    exact (fair _).mem_iff.mpr (mem_tagsOf.mpr ⟨releaseIni, mem_of_some held⟩)

theorem stored_assets (h : Shows shelf files) (fair : ∀ names, (order names).Perm names) {project_name : Bytes}
    {release : CiReleaseRecord} (inside : release ∈ stored order files project_name) :
    release.assets = loadAssets order files project_name release.tag := by
  obtain ⟨record, _, same⟩ := (mem_stored order h fair).mp inside
  exact congrArg CiReleaseRecord.assets same

theorem stored_invalid (h : Shows shelf files) (fair : ∀ names, (order names).Perm names) {project_name : Bytes}
    (invalid : ¬ isValidProjectName project_name) : stored order files project_name = [] := by
  apply List.eq_nil_iff_forall_not_mem.mpr
  intro release inside
  obtain ⟨record, held, _⟩ := (mem_stored order h fair).mp inside
  exact invalid (h.releases project_name release.tag record held).2.project

theorem loadReleases_eq (h : Shows shelf files) (fair : ∀ names, (order names).Perm names) (project_name : Bytes)
    (maximum : Nat) : loadReleases order files project_name maximum
      = ((stored order files project_name).insertionSort newestFirst).take maximum := by
  unfold loadReleases
  by_cases none : maximum = 0
  · simp [none]
  · by_cases valid : isValidProjectName project_name
    · simp [none, valid]
    · simp [valid, stored_invalid order h fair valid]

theorem stored_sorted (h : Shows shelf files) (fair : ∀ names, (order names).Perm names) (project_name : Bytes) :
    ((stored order files project_name).insertionSort newestFirst).Pairwise Newer := by
  apply strict_of_sorted Ne.symm newer_of_first (List.perm_insertionSort _ _) _ (stored_apart order h fair project_name)
  exact sorted_insertionSort newestFirst_trans newestFirst_total _

/-- The releases of a project as they were published last, each with its readable assets. -/
structure Lists (shelf : Shelf) (project_name : Bytes) (all : List CiReleaseRecord) : Prop where
  newest : all.Pairwise Newer
  mem : ∀ release, release ∈ all ↔ ∃ record, shelf.release project_name release.tag = some record
    ∧ release = { record with assets := release.assets } ∧ release.assets.Pairwise (fun a b => a.name < b.name)
    ∧ ∀ artifact, artifact ∈ release.assets
      ↔ shelf.asset project_name release.tag artifact.name = some artifact ∧ Readable artifact

theorem lists_stored (h : Shows shelf files) (fair : ∀ names, (order names).Perm names) (project_name : Bytes) :
    Lists shelf project_name ((stored order files project_name).insertionSort newestFirst) := by
  have listed := loadAssets_listed order h fair project_name
  refine ⟨stored_sorted order h fair project_name, ?_⟩
  intro release
  rw [List.mem_insertionSort]
  constructor
  · intro inside
    obtain ⟨record, held, same⟩ := (mem_stored order h fair).mp inside
    rw [stored_assets order h fair inside]
    exact ⟨record, held, same, listed release.tag⟩
  · intro found
    obtain ⟨record, held, same, ascending, members⟩ := found
    obtain ⟨up, among⟩ := listed release.tag
    rw [eq_of_strict (fun _ _ => List.lt_asymm) ascending up fun artifact =>
      (members artifact).trans (among artifact).symm] at same
    exact (mem_stored order h fair).mpr ⟨record, held, same⟩

/-- After any writes and removals, refused ones among them, loadReleases lists the first of the
releases published last, each with its readable assets, whatever order the directories are read in. -/
theorem releases_listed (fair : ∀ names, (order names).Perm names) (events : List Event) (project_name : Bytes)
    (maximum : Nat) : ∃ all : List CiReleaseRecord,
      loadReleases order (replay events) project_name maximum = all.take maximum
        ∧ Lists (published events) project_name all :=
  have h := shows_published events
  ⟨_, loadReleases_eq order h fair project_name maximum, lists_stored order h fair project_name⟩

/-- Two releases, of which the second is removed again. -/
def history : List Event :=
  [.record (ascii "demo") { tag := ascii "v1", commit_id := List.replicate 40 97, created_epoch_seconds := 5 },
    .asset (ascii "demo") (ascii "v1") ⟨ascii "tool", 3, [], 5, 0, []⟩,
    .record (ascii "demo") { tag := ascii "v2", commit_id := List.replicate 40 98, created_epoch_seconds := 6 },
    .remove (ascii "demo") (ascii "v2")]

theorem releases_listed_history : ∃ all : List CiReleaseRecord,
    loadReleases List.reverse (replay history) (ascii "demo") 5 = all.take 5
      ∧ Lists (published history) (ascii "demo") all :=
  releases_listed List.reverse List.reverse_perm history (ascii "demo") 5

theorem sortAssets_stored (h : Shows shelf files) (fair : ∀ names, (order names).Perm names) {project_name : Bytes}
    {release : CiReleaseRecord} (inside : release ∈ stored order files project_name) :
    sortAssets release = release := by
  have assets := stored_assets order h fair inside
  have ascending := (loadAssets_listed order h fair project_name release.tag).1.imp fun less => List.le_of_lt less
  rw [sortAssets, assets, ascending.insertionSort_eq, ← assets]

/-- The listing is the one that the control channel sends. -/
theorem loadReleases_stored (h : Shows shelf files) (fair : ∀ names, (order names).Perm names) (project_name : Bytes) :
    Listings.loadReleases (stored order files project_name) = loadReleases order files project_name 64 := by
  have unsorted : (stored order files project_name).map sortAssets = stored order files project_name :=
    (List.map_congr_left fun release inside => sortAssets_stored order h fair inside).trans (List.map_id _)
  rw [loadReleases_eq order h fair, Listings.loadReleases, unsorted]

theorem storedRelease_of (h : Shows shelf files) (fair : ∀ names, (order names).Perm names) {project_name : Bytes}
    {release : CiReleaseRecord} (inside : release ∈ stored order files project_name) : StoredRelease release := by
  obtain ⟨record, held, same⟩ := (mem_stored order h fair).mp inside
  obtain ⟨_, accepted⟩ := h.releases project_name release.tag record held
  refine ⟨same ▸ accepted.tag, same ▸ accepted.commit, ?_⟩
  intro asset among
  rw [stored_assets order h fair inside] at among
  obtain ⟨published, readable⟩ := ((loadAssets_listed order h fair project_name release.tag).2 asset).mp among
  exact ⟨(h.assets _ _ _ _ published).2.name, readable.1⟩

/-- What the client reads from the daemon's answer are the releases published last. -/
theorem releases_reported (fair : ∀ names, (order names).Perm names) (events : List Event) (project_name : Bytes)
    {response : Bytes} (answered : releasesResponse order (replay events) project_name = .ok response) :
    ∃ all : List CiReleaseRecord, parseReleasesControlResponse response = .ok ((all.take 64).map listedRelease)
      ∧ Lists (published events) project_name all := by
  have h := shows_published events
  have same := loadReleases_stored order h fair project_name
  have good : ∀ release ∈ stored order (replay events) project_name, StoredRelease release :=
    fun release inside => storedRelease_of order h fair inside
  have distinct : ((stored order (replay events) project_name).map (·.tag)).Nodup :=
    List.pairwise_map.mpr (stored_apart order h fair project_name)
  refine ⟨_, ?_, lists_stored order h fair project_name⟩
  rw [← loadReleases_eq order h fair project_name 64, ← same]
  apply releases_accepted good distinct
  rw [← answered, releasesResponse, ← same]
  rfl

theorem releases_reported_history : ∃ response all,
    releasesResponse List.reverse (replay history) (ascii "demo") = .ok response
      ∧ parseReleasesControlResponse response = .ok ((List.take 64 all).map listedRelease)
      ∧ Lists (published history) (ascii "demo") all := by
  have some : (releasesResponse List.reverse (replay history) (ascii "demo")).toOption.isSome := by decide +kernel
  cases answered : releasesResponse List.reverse (replay history) (ascii "demo") with
  | error error =>
    rw [answered] at some
    cases some
  | ok response =>
    obtain ⟨all, told⟩ := releases_reported List.reverse List.reverse_perm history (ascii "demo") answered
    exact ⟨response, all, rfl, told⟩

theorem asset_content_iff (h : Shows shelf files) {project_name tag asset_name : Bytes} {cap : Nat} {content : Bytes} :
    readCiReleaseAsset files project_name tag asset_name cap = some content
      ↔ isValidCiArtifactName asset_name ∧ (shelf.release project_name tag).isSome
        ∧ shelf.bundle project_name tag asset_name = some content ∧ content.length ≤ cap := by
  unfold readCiReleaseAsset readCappedAt
  rw [h.release, h.bundle]
  cases found : shelf.release project_name tag with
  | none => simp
  | some record =>
    obtain ⟨rfl, accepted⟩ := h.releases project_name tag record found
    simp only [Option.map_some, if_neg (Nat.not_lt.mpr accepted.fits), parseRelease_serialized accepted, ne_eq,
      not_true_eq_false, if_false, accepted.project, accepted.tag, false_or]
    cases placed : shelf.bundle project_name record.tag asset_name with
    | none => simp [Except.toOption]
    | some held =>
      simp only [Option.some.injEq, Option.isSome_some, true_and]
      by_cases large : held.length > cap
      · have short : ¬ (held = content ∧ content.length ≤ cap) := by
          intro served
          rw [served.1] at large
          omega
        simp [large, short, Except.toOption, Store.Files.kUnsafeRecord, fail]
      · have fits : held = content → content.length ≤ cap := by
          intro same
          rw [← same]
          omega
        simp only [if_neg large, Except.toOption, Option.join_some, Option.ite_none_left_eq_some, not_not,
          Option.some.injEq]
        tauto

/-- After any writes and removals, an asset is served while its release is published, as its bundle was placed last. -/
theorem bundle_served (events : List Event) (project_name tag asset_name : Bytes) (cap : Nat) (content : Bytes) :
    readCiReleaseAsset (replay events) project_name tag asset_name cap = some content
      ↔ isValidCiArtifactName asset_name ∧ ((published events).release project_name tag).isSome
        ∧ (published events).bundle project_name tag asset_name = some content ∧ content.length ≤ cap :=
  asset_content_iff (shows_published events)

end CkGit.Store.Releases
