import CkGit.Digest.Model
import CkGit.Store.Releases

/-!
The release that a finished tag build publishes (commitCiRun and takeStaged in
src/common/ci_results.cpp). A release of a version 2 workflow is replaced whole:
wherever the commit stops, what is published under the tag is what is left of the
earlier release, or nothing, or the new release with all its assets.
-/
namespace CkGit.Store.Releases
open CkGit.Base CkGit.Ci CkGit.Listings CkGit.Responses CkGit.Upload

/-- The files under releases/, and the parts of the staged assets by name. -/
structure Disk where
  files : Files
  parts : List (Bytes × Bytes)

abbrev Op := Prog Disk String

structure CiStagedUpload where
  kind : CiUploadKind
  name : Bytes
  total : UInt64
  sha256 : Bytes
  /-- readMeta checks the digest. -/
  digest : isValidSha256Hex sha256

structure Host where
  sha256 : Bytes → Bytes
  /-- How a directory is read. -/
  order : List Bytes → List Bytes
  fair : ∀ names, (order names).Perm names
  /-- The file can be removed. -/
  removes : Bytes → Bool
  /-- A directory whose files are gone can be removed. -/
  clears : Bool
  /-- The part can be renamed into the directory. -/
  stores : Bytes → Bool

structure ReleaseCommit where
  project : Bytes
  release_tag : Bytes
  version : Nat
  success : Bool
  /-- The outputs, each with the clock when it is stored. -/
  outputs : List (CiDeclaredOutput × UInt64)
  staged : List CiStagedUpload
  commit_id : Bytes
  created_epoch_seconds : UInt64
  notes : Bytes

variable (host : Host) (commit : ReleaseCommit)

def unlinkFile (name : Bytes) : Op Unit := do
  .whenever (¬ host.removes name) (.throw "the file could not be removed")
  .modify fun disk =>
    { disk with files := disk.files.filter fun file => file.1 ≠ ⟨commit.project, commit.release_tag, name⟩ }

/-- The files of the release go one after another, up to one that cannot be removed. -/
def unlinkRelease : Op Unit := do
  .ofExcept (failIf (¬ isValidProjectName commit.project ∨ ¬ isValidReleaseTag commit.release_tag)
    "invalid release for removal")
  let names ← .gets fun disk => host.order (namesIn disk.files commit.project commit.release_tag)
  (Prog.forEach names (unlinkFile host commit)).bestEffort

/-- A write that is accepted. -/
def update (write : Files → Except String Files) : Op Unit := do
  let files ← .reads fun disk => write disk.files
  .modify fun disk => { disk with files }

/-- A note, or the size and the digest of the part that was moved. -/
def takeStaged (held : Bytes → Nat) (name : Bytes) : Op (Bytes × UInt64 × Bytes) :=
  match commit.staged.find? fun upload => upload.kind = .kAsset ∧ upload.name = name with
  | none => return (ascii "the output was never uploaded", 0, [])
  | some upload =>
    if held name ≠ upload.total.toNat then return (ascii "the upload was incomplete", 0, [])
    else do
      match ← .gets fun disk => Assoc.get name disk.parts with
      | none => .throw "could not checksum regular file: "
      | some content =>
        if host.sha256 content ≠ upload.sha256 then return (ascii "the upload failed its checksum", 0, [])
        else if ¬ host.stores name then return (ascii "the upload could not be stored", 0, [])
        else do
          .modify fun disk =>
            { files := placeBundle commit.project commit.release_tag name content disk.files
              parts := Assoc.erase name disk.parts }
          return ([], upload.total, host.sha256 content)

def prepareCiReleaseDirectory : Except String Unit := do
  failIf (¬ isValidProjectName commit.project) "invalid project name for a release"
  failIf (¬ isValidReleaseTag commit.release_tag) "invalid release tag"

def isAsset (output : CiDeclaredOutput) : Bool :=
  output.release && isValidCiArtifactName output.name && output.name != ascii "release"

/-- The runner's note, or what becomes of the part. -/
def takeOutput (held : Bytes → Nat) (output : CiDeclaredOutput) : Op (Bytes × UInt64 × Bytes) :=
  if output.note ≠ [] then return (output.note, 0, [])
  else do
    .ofExcept (prepareCiReleaseDirectory commit)
    takeStaged host commit held output.name

def storeAsset (held : Bytes → Nat) (output : CiDeclaredOutput) (created : UInt64) : Op Unit := do
  let (note, bytes, sha256) ← takeOutput host commit held output
  .whenever (commit.version = 2 ∧ note ≠ []) (.throw ("ci results: incomplete distributed release: " ++ asMessage note))
  update (writeCiReleaseArtifactRecord commit.project commit.release_tag ⟨output.name, bytes, sha256, created, 0, note⟩)

def ReleaseCommit.release : CiReleaseRecord :=
  { tag := commit.release_tag, commit_id := commit.commit_id
    created_epoch_seconds := commit.created_epoch_seconds, notes := commit.notes }

/-- A version 2 release replaces the earlier one. -/
def replaceRelease : Op Unit := do
  unlinkRelease host commit
  let left ← .gets fun disk => namesIn disk.files commit.project commit.release_tag
  .whenever (left ≠ [] ∨ ¬ host.clears) (.throw "ci results: could not replace prior distributed release")

def storeAssets (held : Bytes → Nat) : Op Unit :=
  .forEach commit.outputs fun output =>
    .whenever (isAsset output.1) (storeAsset host commit held output.1 output.2)

def publishRelease : Op Unit := do
  -- What is held was counted when the staged uploads were listed.
  let held ← .gets fun disk name => (Assoc.get name disk.parts).elim 0 List.length
  .whenever (commit.version = 2) (replaceRelease host commit)
  storeAssets host commit held
  update (writeCiReleaseRecord commit.project commit.release)

/-- What commitCiRun does about the release of a tag build. -/
def commitRelease : Op Unit :=
  if ¬ commit.success then (unlinkRelease host commit).bestEffort
  else if commit.version = 2 then publishRelease host commit
  else (publishRelease host commit).bestEffort

/-- The files of the release. -/
def ReleaseCommit.owns (place : Place) : Bool := place.project = commit.project ∧ place.tag = commit.release_tag

/-- No other release changes. -/
def Elsewhere (before after : Disk) : Prop :=
  ∀ place, commit.owns place = false → Assoc.get place after.files = Assoc.get place before.files

/-- The earlier release, or what a removal left of it. -/
def Partly (before after : Disk) : Prop :=
  after.parts = before.parts ∧ ∃ kept : Place → Bool, (∀ place, commit.owns place = false → kept place)
    ∧ after.files = before.files.filter fun file => kept file.1

def assetNames (outputs : List (CiDeclaredOutput × UInt64)) : List Bytes :=
  (outputs.filter fun output => isAsset output.1).map (·.1.name)

/-- Every declared asset is listed, and served as it was uploaded. -/
def Complete (disk : Disk) : Prop :=
  ∃ shown, loadRelease host.order disk.files commit.project commit.release_tag = some shown
    ∧ shown = { commit.release with assets := shown.assets }
    ∧ (∀ name, name ∈ shown.assets.map (·.name) ↔ name ∈ assetNames commit.outputs)
    ∧ ∀ asset ∈ shown.assets, asset.note = [] ∧ ∃ content, content.length = asset.bytes.toNat
      ∧ host.sha256 content = asset.sha256
      ∧ ∀ cap, content.length ≤ cap →
        readCiReleaseAsset disk.files commit.project commit.release_tag asset.name cap = some content

/-- No new release: what is left of the earlier one, or nothing that is listed. -/
def Unfinished (before after : Disk) : Prop :=
  Partly commit before after ∨ loadRelease host.order after.files commit.project commit.release_tag = none

/-- The release is replaced whole or not at all, wherever the commit stops. -/
structure ReplacedWhole (before : Disk) : Prop where
  /-- The commit dies between two writes. -/
  cut : ∀ writes, Unfinished host commit before ((commitRelease host commit).cutAfter writes before)
    ∨ commit.success ∧ Complete host commit ((commitRelease host commit).cutAfter writes before)
  elsewhere : ∀ writes, Elsewhere commit before ((commitRelease host commit).cutAfter writes before)
  returned : ∀ after, (commitRelease host commit).exec before = (.ok (), after) →
    if commit.success then Complete host commit after else Unfinished host commit before after
  threw : ∀ error after, (commitRelease host commit).exec before = (.error error, after) →
    Unfinished host commit before after

variable {host commit} {shelf : Shelf} {disk : Disk} {crash : Disk → Prop} {threw : String → Disk → Prop}

theorem Partly.unlink {before after : Disk} (held : Partly commit before disk) {name : Bytes}
    (same : after.files = disk.files.filter fun file => file.1 ≠ ⟨commit.project, commit.release_tag, name⟩)
    (unmoved : after.parts = disk.parts) : Partly commit before after := by
  obtain ⟨parts, kept, elsewhere, files⟩ := held
  refine ⟨unmoved.trans parts, fun place => kept place && place ≠ ⟨commit.project, commit.release_tag, name⟩, ?_, ?_⟩
  · intro place apart
    simp only [Bool.and_eq_true, decide_eq_true_eq]
    refine ⟨elsewhere place apart, ?_⟩
    rintro rfl
    simp [ReleaseCommit.owns] at apart
  · rw [same, files, List.filter_filter]
    apply List.filter_congr
    intro file _
    exact Bool.and_comm _ _

theorem Partly.refl (before : Disk) : Partly commit before before :=
  ⟨rfl, fun _ => true, fun _ _ => rfl, by simp⟩

/-- What unlinking one file keeps, the removal of the release keeps. -/
theorem unlinkRelease_keeps {invariant : Disk → Prop}
    (each : ∀ name, Prog.Keeps invariant (unlinkFile host commit name)) :
    Prog.Keeps invariant (unlinkRelease host commit) := by
  apply (Prog.Keeps.ofExcept _).bind
  intro _
  apply (Prog.Keeps.gets _).bind
  exact fun _ _ held => (Prog.Keeps.forEach each).bestEffort held

theorem unlinkFile_keeps {invariant : Disk → Prop} {name : Bytes} (kept : ∀ disk, invariant disk → invariant
    { disk with files := disk.files.filter fun file => file.1 ≠ ⟨commit.project, commit.release_tag, name⟩ }) :
    Prog.Keeps invariant (unlinkFile host commit name) := by
  apply (Prog.Keeps.whenever fun _ held => held).bind
  exact fun _ => Prog.Keeps.modify kept

theorem unlinkRelease_wp {before : Disk} (held : Partly commit before disk) :
    (unlinkRelease host commit).wp (Partly commit before) (fun _ => Partly commit before)
      (fun _ => Partly commit before) disk :=
  unlinkRelease_keeps (fun _ => unlinkFile_keeps fun _ held => held.unlink rfl rfl) disk held

/-- What is left of a release shows what is left of what was published. -/
theorem Partly.shows {before after : Disk} (h : Shows shelf before.files) (held : Partly commit before after) :
    ∃ shelf, Shows shelf after.files := by
  obtain ⟨_, kept, _, files⟩ := held
  exact ⟨shelf.keep kept, files ▸ h.keep kept⟩

/-- The asset's part was moved whole. -/
def Placed (shelf : Shelf) (disk : Disk) (name : Bytes) (bytes : UInt64) (sha256 : Bytes) : Prop :=
  isValidSha256Hex sha256 ∧ Assoc.get name disk.parts = none ∧ ∃ content,
    shelf.bundle commit.project commit.release_tag name = some content ∧ content.length = bytes.toNat
      ∧ host.sha256 content = sha256

/-- Nothing is listed yet, and the assets that are there are those of the outputs handled so far. -/
structure Staging (host : Host) (commit : ReleaseCommit) (held : Bytes → Nat)
    (done : List (CiDeclaredOutput × UInt64)) (shelf : Shelf) (disk : Disk) : Prop where
  shows : Shows shelf disk.files
  absent : shelf.release commit.project commit.release_tag = none
  parts : ∀ name content, Assoc.get name disk.parts = some content → held name = content.length
  only : ∀ name asset, shelf.asset commit.project commit.release_tag name = some asset →
    name ∈ assetNames done ∧ asset.note = [] ∧ @Placed host commit shelf disk name asset.bytes asset.sha256
  each : ∀ name ∈ assetNames done, (shelf.asset commit.project commit.release_tag name).isSome

abbrev Staged (host : Host) (commit : ReleaseCommit) (held : Bytes → Nat) (done : List (CiDeclaredOutput × UInt64))
    (disk : Disk) : Prop := ∃ shelf, Staging host commit held done shelf disk

/-- The release is not listed. -/
def Unlisted (commit : ReleaseCommit) (disk : Disk) : Prop :=
  ∃ shelf, Shows shelf disk.files ∧ shelf.release commit.project commit.release_tag = none

variable {held : Bytes → Nat} {done : List (CiDeclaredOutput × UInt64)}

theorem Staging.unlisted (staging : Staging host commit held done shelf disk) : Unlisted commit disk :=
  ⟨shelf, staging.shows, staging.absent⟩

theorem Unlisted.unfinished {before : Disk} (h : Unlisted commit disk) : Unfinished host commit before disk := by
  obtain ⟨shelf, shows, absent⟩ := h
  apply Or.inr
  apply Option.eq_none_iff_forall_ne_some.mpr
  intro release loaded
  obtain ⟨record, published, _⟩ := (loadRelease_iff host.order shows).mp loaded
  rw [absent] at published
  cases published

/-- The part moves into the directory. -/
theorem Staging.place (staging : Staging host commit held done shelf disk) {name content : Bytes}
    (part : Assoc.get name disk.parts = some content) :
    Staging host commit held done (shelf.putBundle commit.project commit.release_tag name content)
      { files := placeBundle commit.project commit.release_tag name content disk.files
        parts := Assoc.erase name disk.parts } := by
  refine ⟨staging.shows.put_bundle _ _ _ _, staging.absent, ?_, ?_, staging.each⟩
  · intro other bytes left
    rw [Assoc.get_erase] at left
    split at left
    · cases left
    · exact staging.parts other bytes left
  · intro other asset there
    obtain ⟨among, note, digest, gone, bytes, bundle, length, sum⟩ := staging.only other asset there
    have apart : other ≠ name := by
      rintro rfl
      rw [gone] at part
      cases part
    refine ⟨among, note, digest, ?_, bytes, ?_, length, sum⟩
    · simp [gone]
    · simp [Shelf.putBundle, apart, bundle]

theorem takeStaged_wp (staging : Staging host commit held done shelf disk) (name : Bytes) :
    (takeStaged host commit held name).wp (Unlisted commit)
      (fun stored t => ∃ shelf, Staging host commit held done shelf t
        ∧ (stored.1 = [] → @Placed host commit shelf t name stored.2.1 stored.2.2))
      (fun _ => Unlisted commit) disk := by
  -- A note says why nothing was moved.
  have noted : ∀ {note : Bytes}, note ≠ [] → ∃ shelf, Staging host commit held done shelf disk
      ∧ (note = [] → @Placed host commit shelf disk name 0 []) :=
    fun filled => ⟨shelf, staging, fun empty => absurd empty filled⟩
  unfold takeStaged
  cases commit.staged.find? fun upload => upload.kind = .kAsset ∧ upload.name = name with
  | none => exact noted (by decide)
  | some upload =>
    by_cases incomplete : held name ≠ upload.total.toNat
    · simp only [if_pos incomplete]
      exact noted (by decide)
    · simp only [if_neg incomplete, Prog.wp_bind, Prog.wp_gets]
      cases part : Assoc.get name disk.parts with
      | none => exact staging.unlisted
      | some content =>
        by_cases failed : host.sha256 content ≠ upload.sha256
        · simp only [if_pos failed]
          exact noted (by decide)
        · by_cases refused : host.stores name
          · have placed := staging.place part
            have length : content.length = upload.total.toNat :=
              (staging.parts name content part).symm.trans (not_not.mp incomplete)
            simp only [if_neg failed, refused, not_true_eq_false, if_false]
            refine ⟨placed.unlisted, _, placed, fun _ => ⟨?_, ?_, content, ?_, length, rfl⟩⟩
            · exact not_not.mp failed ▸ upload.digest
            · simp
            · simp [Shelf.putBundle]
          · simp only [if_neg failed, if_pos refused]
            exact noted (by decide)

theorem update_wp {write : Files → Except String Files} {returned : Unit → Disk → Prop}
    (accepted : ∀ after, write disk.files = .ok after →
      crash { disk with files := after } ∧ returned () { disk with files := after })
    (refused : ∀ error, write disk.files = .error error → threw error disk) :
    (update write).wp crash returned threw disk := by
  unfold update
  rw [Prog.wp_bind]
  exact Prog.wp_reads accepted refused

theorem assetNames_snoc {output : CiDeclaredOutput} {created : UInt64} (asset : isAsset output) :
    assetNames (done ++ [(output, created)]) = assetNames done ++ [output.name] := by
  simp [assetNames, asset]

theorem takeOutput_wp (staging : Staging host commit held done shelf disk) (output : CiDeclaredOutput) :
    (takeOutput host commit held output).wp (Unlisted commit)
      (fun stored t => ∃ shelf, Staging host commit held done shelf t
        ∧ (stored.1 = [] → @Placed host commit shelf t output.name stored.2.1 stored.2.2))
      (fun _ => Unlisted commit) disk := by
  unfold takeOutput
  by_cases noted : output.note ≠ []
  · rw [if_pos noted]
    exact ⟨shelf, staging, fun empty => absurd empty noted⟩
  · rw [if_neg noted, Prog.wp_bind]
    apply Prog.wp_ofExcept
    · exact fun _ _ => takeStaged_wp staging output.name
    · exact fun _ _ => staging.unlisted

theorem Staging.record (staging : Staging host commit held done shelf disk) {output : CiDeclaredOutput}
    (created : UInt64) {artifact : CiArtifactRecord} (asset : isAsset output) (named : artifact.name = output.name)
    (bare : artifact.note = []) (placed : @Placed host commit shelf disk artifact.name artifact.bytes artifact.sha256)
    (accepted : AcceptedAsset commit.project commit.release_tag artifact) :
    Staging host commit held (done ++ [(output, created)])
      (shelf.putAsset commit.project commit.release_tag artifact)
      { disk with
        files := Assoc.put ⟨commit.project, commit.release_tag, ini artifact.name⟩ (serializeArtifact artifact)
          disk.files } := by
  refine ⟨staging.shows.put_asset accepted, staging.absent, staging.parts, ?_, ?_⟩
  · intro name record there
    rw [assetNames_snoc asset, ← named]
    by_cases here : name = artifact.name
    · simp only [Shelf.putAsset, here, and_self, if_true, Option.some.injEq] at there
      rw [← there, here]
      exact ⟨List.mem_append_right _ List.mem_cons_self, bare, placed⟩
    · simp only [Shelf.putAsset, here, and_false, if_false] at there
      obtain ⟨among, whole⟩ := staging.only name record there
      exact ⟨List.mem_append_left _ among, whole⟩
  · intro name among
    rw [assetNames_snoc asset, ← named] at among
    by_cases here : name = artifact.name
    · simp [Shelf.putAsset, here]
    · have earlier : name ∈ assetNames done := by simpa [here] using among
      simpa [Shelf.putAsset, here] using staging.each name earlier

theorem storeAsset_wp (v2 : commit.version = 2) (staging : Staging host commit held done shelf disk)
    {output : CiDeclaredOutput} (asset : isAsset output) (created : UInt64) :
    (storeAsset host commit held output created).wp (Unlisted commit)
      (fun _ => Staged host commit held (done ++ [(output, created)]))
      (fun _ => Unlisted commit) disk := by
  unfold storeAsset
  rw [Prog.wp_bind]
  apply Prog.wp_mono (takeOutput_wp staging output) (fun _ unlisted => unlisted) _ (fun _ _ unlisted => unlisted)
  intro stored t reached
  obtain ⟨note, bytes, sha256⟩ := stored
  obtain ⟨shelf, staging, placed⟩ := reached
  simp only [Prog.wp_bind]
  apply Prog.wp_whenever
  · exact fun _ => staging.unlisted
  · intro whole
    obtain rfl : note = [] := by
      by_contra filled
      exact whole ⟨v2, filled⟩
    apply update_wp
    · intro after written
      obtain ⟨accepted, rfl⟩ := writeCiReleaseArtifactRecord_ok.mp written
      have next := staging.record created asset rfl rfl (placed rfl) accepted
      exact ⟨next.unlisted, _, next⟩
    · exact fun _ _ => staging.unlisted

/-- The release is listed with every asset as it was declared. -/
theorem Staging.complete (staging : Staging host commit held commit.outputs shelf disk)
    (accepted : AcceptedRelease commit.project commit.release) :
    Complete host commit
      { disk with
        files := Assoc.put ⟨commit.project, commit.release.tag, releaseIni⟩ (serializeRelease commit.release)
          disk.files } := by
  have shows := staging.shows.put_release accepted
  have published : (shelf.putRelease commit.project commit.release).release commit.project commit.release_tag
      = some commit.release := if_pos ⟨rfl, rfl⟩
  obtain ⟨_, listed⟩ := loadAssets_listed host.order shows host.fair commit.project commit.release_tag
  refine ⟨_, (loadRelease_iff host.order shows).mpr ⟨_, published, rfl⟩, rfl, ?_, ?_⟩
  · intro name
    constructor
    · intro among
      obtain ⟨asset, inside, rfl⟩ := List.mem_map.mp among
      exact (staging.only _ _ ((listed asset).mp inside).1).1
    · intro declared
      obtain ⟨asset, there⟩ := Option.isSome_iff_exists.mp (staging.each name declared)
      obtain ⟨_, bare, digest, _⟩ := staging.only name asset there
      obtain ⟨rfl, _⟩ := staging.shows.assets _ _ _ _ there
      refine List.mem_map.mpr ⟨asset, (listed asset).mpr ⟨there, .inr digest, ?_⟩, rfl⟩
      rw [bare]
      exact Nat.zero_le _
  · intro asset inside
    obtain ⟨there, _⟩ := (listed asset).mp inside
    obtain ⟨_, bare, _, _, content, bundle, length, sum⟩ := staging.only _ _ there
    obtain ⟨_, own⟩ := staging.shows.assets _ _ _ _ there
    refine ⟨bare, content, length, sum, ?_⟩
    intro cap room
    exact (asset_content_iff shows).mpr ⟨own.name, congrArg Option.isSome published, bundle, room⟩

/-- Nothing is left in the directory. -/
theorem Staging.start (h : Shows shelf disk.files)
    (empty : namesIn disk.files commit.project commit.release_tag = [])
    (parts : ∀ name content, Assoc.get name disk.parts = some content → held name = content.length) :
    Staging host commit held [] shelf disk := by
  have nowhere : ∀ name, Assoc.get ⟨commit.project, commit.release_tag, name⟩ disk.files = none := by
    intro name
    apply Assoc.get_absent
    rw [← mem_namesIn, empty]
    exact List.not_mem_nil
  refine ⟨h, ?_, parts, ?_, ?_⟩
  · have gone := h.release commit.project commit.release_tag
    rw [nowhere] at gone
    exact Option.map_eq_none_iff.mp gone.symm
  · intro name asset there
    obtain ⟨rfl, own⟩ := h.assets _ _ _ _ there
    have held := h.asset commit.project commit.release_tag asset.name own.name own.free
    rw [nowhere, there] at held
    cases held
  · intro name among
    cases among

theorem Staging.skip (staging : Staging host commit held done shelf disk) {output : CiDeclaredOutput × UInt64}
    (other : ¬ isAsset output.1) : Staging host commit held (done ++ [output]) shelf disk := by
  have same : assetNames (done ++ [output]) = assetNames done := by simp [assetNames, other]
  exact ⟨staging.shows, staging.absent, staging.parts, same ▸ staging.only, same ▸ staging.each⟩

theorem replaceRelease_wp (before : Disk) (h : Shows shelf before.files)
    (parts : ∀ name content, Assoc.get name before.parts = some content → held name = content.length) :
    (replaceRelease host commit).wp (Partly commit before)
      (fun _ => Staged host commit held []) (fun _ => Partly commit before) before := by
  unfold replaceRelease
  rw [Prog.wp_bind]
  apply Prog.wp_mono (unlinkRelease_wp (Partly.refl before)) (fun _ partly => partly) _ (fun _ _ partly => partly)
  intro _ t partly
  rw [Prog.wp_bind, Prog.wp_gets]
  apply Prog.wp_whenever
  · exact fun _ => partly
  · intro empty
    obtain ⟨shelf, shows⟩ := partly.shows h
    have unmoved : ∀ name content, Assoc.get name t.parts = some content → held name = content.length := by
      rw [partly.1]
      exact parts
    exact ⟨shelf, Staging.start shows (not_not.mp (not_or.mp empty).1) unmoved⟩

theorem storeAssets_wp (v2 : commit.version = 2) (staging : Staging host commit held [] shelf disk) :
    (storeAssets host commit held).wp (Unlisted commit)
      (fun _ => Staged host commit held commit.outputs) (fun _ => Unlisted commit) disk := by
  apply Prog.wp_forEach_done
  · intro earlier output later _ t reached
    obtain ⟨shelf, staging⟩ := reached
    apply Prog.wp_whenever
    · exact fun asset => storeAsset_wp v2 staging asset output.2
    · exact fun other => ⟨shelf, staging.skip other⟩
  · exact ⟨shelf, staging⟩

theorem publishRelease_wp (v2 : commit.version = 2) (h : Shows shelf disk.files) :
    (publishRelease host commit).wp (fun t => Unfinished host commit disk t ∨ Complete host commit t)
      (fun _ => Complete host commit) (fun _ => Unfinished host commit disk) disk := by
  unfold publishRelease Prog.whenever
  rw [Prog.wp_bind, Prog.wp_gets, if_pos v2, Prog.wp_bind]
  have counted : ∀ name content, Assoc.get name disk.parts = some content →
      (Assoc.get name disk.parts).elim 0 List.length = content.length := by
    intro name content part
    rw [part]
    rfl
  apply Prog.wp_mono (replaceRelease_wp disk h counted) (fun _ partly => .inl (.inl partly)) _
    (fun _ _ partly => .inl partly)
  intro _ t reached
  obtain ⟨shelf, staging⟩ := reached
  rw [Prog.wp_bind]
  apply Prog.wp_mono (storeAssets_wp v2 staging) (fun _ unlisted => .inl unlisted.unfinished) _
    (fun _ _ unlisted => unlisted.unfinished)
  intro _ u reached
  obtain ⟨shelf, staging⟩ := reached
  apply update_wp
  · intro after written
    obtain ⟨accepted, rfl⟩ := writeCiReleaseRecord_ok.mp written
    have complete := staging.complete accepted
    exact ⟨.inr complete, complete⟩
  · exact fun _ _ => staging.unlisted.unfinished

theorem Elsewhere.put {before : Disk} (kept : Elsewhere commit before disk) {name content : Bytes}
    {parts : List (Bytes × Bytes)} :
    Elsewhere commit before ⟨Assoc.put ⟨commit.project, commit.release_tag, name⟩ content disk.files, parts⟩ := by
  intro place other
  rw [Assoc.get_put, if_neg]
  · exact kept place other
  · rintro rfl
    simp [ReleaseCommit.owns] at other

theorem Elsewhere.unlink {before : Disk} (kept : Elsewhere commit before disk) (name : Bytes) :
    Elsewhere commit before { disk with
      files := disk.files.filter fun file => file.1 ≠ ⟨commit.project, commit.release_tag, name⟩ } := by
  intro place other
  have apart : place ≠ ⟨commit.project, commit.release_tag, name⟩ := by
    rintro rfl
    simp [ReleaseCommit.owns] at other
  have found := get_filter_places (fun place => place ≠ ⟨commit.project, commit.release_tag, name⟩) disk.files place
  simp only [apart, ne_eq, not_false_eq_true, decide_true, if_true] at found
  exact found.trans (kept place other)

theorem update_elsewhere {before : Disk} {write : Files → Except String Files}
    (own : ∀ files after, write files = .ok after → ∃ name content,
      after = Assoc.put ⟨commit.project, commit.release_tag, name⟩ content files) :
    Prog.Keeps (Elsewhere commit before) (update write) := by
  intro disk kept
  apply update_wp
  · intro after written
    obtain ⟨name, content, rfl⟩ := own _ _ written
    exact ⟨kept.put, kept.put⟩
  · exact fun _ _ => kept

theorem takeStaged_elsewhere {before : Disk} {name : Bytes} :
    Prog.Keeps (Elsewhere commit before) (takeStaged host commit held name) := by
  unfold takeStaged
  split
  · exact Prog.Keeps.pure _
  · split
    · exact Prog.Keeps.pure _
    · apply (Prog.Keeps.gets _).bind
      intro part
      split
      · exact fun _ kept => kept
      · split
        · exact Prog.Keeps.pure _
        · split
          · exact Prog.Keeps.pure _
          · apply (Prog.Keeps.modify fun _ kept => kept.put).bind
            exact fun _ => Prog.Keeps.pure _

theorem storeAsset_elsewhere {before : Disk} {output : CiDeclaredOutput} {created : UInt64} :
    Prog.Keeps (Elsewhere commit before) (storeAsset host commit held output created) := by
  have taken : Prog.Keeps (Elsewhere commit before) (takeOutput host commit held output) := by
    unfold takeOutput
    split
    · exact Prog.Keeps.pure _
    · exact (Prog.Keeps.ofExcept _).bind fun _ => takeStaged_elsewhere
  apply taken.bind
  intro stored
  apply (Prog.Keeps.whenever fun _ kept => kept).bind
  intro _
  apply update_elsewhere
  intro files after written
  exact ⟨_, _, (writeCiReleaseArtifactRecord_ok.mp written).2⟩

theorem unlinkRelease_elsewhere {before : Disk} : Prog.Keeps (Elsewhere commit before) (unlinkRelease host commit) :=
  unlinkRelease_keeps fun name => unlinkFile_keeps fun _ kept => kept.unlink name

theorem publishRelease_elsewhere {before : Disk} :
    Prog.Keeps (Elsewhere commit before) (publishRelease host commit) := by
  apply (Prog.Keeps.gets _).bind
  intro held
  have replaced : Prog.Keeps (Elsewhere commit before) (replaceRelease host commit) := by
    apply unlinkRelease_elsewhere.bind
    intro _
    apply (Prog.Keeps.gets _).bind
    exact fun _ => Prog.Keeps.whenever fun _ kept => kept
  apply replaced.whenever.bind
  intro _
  apply (Prog.Keeps.forEach fun _ => storeAsset_elsewhere.whenever).bind
  intro _
  apply update_elsewhere
  intro files after written
  exact ⟨_, _, (writeCiReleaseRecord_ok.mp written).2⟩

theorem commitRelease_elsewhere {before : Disk} :
    Prog.Keeps (Elsewhere commit before) (commitRelease host commit) := by
  unfold commitRelease
  split
  · exact fun _ kept => unlinkRelease_elsewhere.bestEffort kept
  · split
    · exact publishRelease_elsewhere
    · exact fun _ kept => publishRelease_elsewhere.bestEffort kept

/-- A version 2 release, wherever its commit stops. -/
theorem commitRelease_wp (v2 : commit.version = 2) (h : Shows shelf disk.files) :
    (commitRelease host commit).wp
      (fun t => Unfinished host commit disk t ∨ commit.success ∧ Complete host commit t)
      (fun _ t => if commit.success then Complete host commit t else Unfinished host commit disk t)
      (fun _ => Unfinished host commit disk) disk := by
  unfold commitRelease
  by_cases success : commit.success = true
  · rw [if_neg (not_not.mpr success), if_pos v2]
    apply Prog.wp_mono (publishRelease_wp v2 h)
    · exact fun _ left => left.imp_right fun complete => ⟨success, complete⟩
    · intro _ t complete
      rwa [if_pos success]
    · exact fun _ _ unfinished => unfinished
  · have stopped : ∀ t, Partly commit disk t →
        if commit.success then Complete host commit t else Unfinished host commit disk t := by
      intro t partly
      rw [if_neg success]
      exact .inl partly
    rw [if_pos success, Prog.wp_bestEffort]
    exact Prog.wp_mono (unlinkRelease_wp (Partly.refl disk)) (fun _ partly => .inl (.inl partly))
      (fun _ => stopped) fun _ => stopped

/-- A cut shows a state before the first write or after one. -/
theorem cutAfter_wp {p : Op Unit} {returned : Unit → Disk → Prop} (run : p.wp crash returned threw disk)
    (start : crash disk) (writes : Nat) : crash (p.cutAfter writes disk) := by
  rcases Prog.cutAfter_crashes p writes disk with same | crashed
  · rw [same]
    exact start
  · exact Prog.wp_crashes run _ crashed

/-- After any history of the store and with any staged parts, a version 2 release is replaced whole. -/
theorem release_replaced_whole (v2 : commit.version = 2) (events : List Event) (parts : List (Bytes × Bytes)) :
    ReplacedWhole host commit ⟨replay events, parts⟩ := by
  have run := @commitRelease_wp host commit _ ⟨replay events, parts⟩ v2 (shows_published events)
  have result := Prog.wp_exec run
  refine ⟨cutAfter_wp run (.inl (.inl (Partly.refl _))), ?_, ?_, ?_⟩
  · have start : Elsewhere commit ⟨replay events, parts⟩ ⟨replay events, parts⟩ := fun _ _ => rfl
    exact cutAfter_wp (commitRelease_elsewhere _ start) start
  · intro after returned
    rwa [returned] at result
  · intro error after threw
    rwa [threw] at result

/-- A machine that refuses nothing. -/
def willing : Host where
  sha256 := Digest.sha256Hex
  order := List.reverse
  fair := List.reverse_perm
  removes _ := true
  clears := true
  stores _ := true

def rebuild : ReleaseCommit where
  project := ascii "demo"
  release_tag := ascii "v1"
  version := 2
  success := true
  outputs := [({ name := ascii "tool", release := true }, 7)]
  staged := [⟨.kAsset, ascii "tool", 3,
    ascii "11507a0e2f5e69d5dfa40a62a1bd7b6ee57e6bcd85c67c9b8431b36fff21c437", by decide⟩]
  commit_id := List.replicate 40 99
  created_epoch_seconds := 7
  notes := []

theorem release_replaced_whole_rebuild :
    ((commitRelease willing rebuild).exec ⟨replay history, [(ascii "tool", ascii "new")]⟩).1.isOk
      ∧ ReplacedWhole willing rebuild ⟨replay history, [(ascii "tool", ascii "new")]⟩ :=
  ⟨by decide +kernel, release_replaced_whole rfl history _⟩

end CkGit.Store.Releases
