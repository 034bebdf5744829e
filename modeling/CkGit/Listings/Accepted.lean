import CkGit.Listings.Parsers
import CkGit.Web.Segments

/-!
Which listings of the daemon its client accepts. All but two kinds: a branch or tag
that Git allows with a byte the refs parser takes for unsafe or a name it takes for
too long, and more projects than the client counts. What the parsers accept is a
listing in every respect, except that releases may name an asset twice.
-/
namespace CkGit.Listings
open CkGit.Base CkGit.Ci CkGit.Responses
open CkGit.Base.Grammar (unwords)
open CkGit.Control (isSafeReportedPath decodeCheckoutPath)
open CkGit.Web (splitFirst splitFirst_append)

theorem bounded_ok {α : Type} {message : String} {count : Nat} {items : List α} {line : α → Except String Bytes}
    {response : Bytes} (covered : count ≤ items.length) (h : bounded message count items line = .ok response) :
    ∃ texts, List.Forall₂ (fun item text => line item = .ok text) items texts
      ∧ response = framed ((ascii "ok " ++ decimal count) :: texts)
      ∧ response.length ≤ kMaximumControlResponseBytes := by
  have loop : ∀ (items : List α) (start : Bytes), items.foldlM
      (fun response item => do
        let text ← line item
        rejectIf (response.length + (text.length + 1) > kMaximumControlResponseBytes) message
        return response ++ (text ++ [newline])) start = .ok response →
      ∃ texts, List.Forall₂ (fun item text => line item = .ok text) items texts ∧ response = start ++ framed texts
        ∧ (items ≠ [] ∨ start.length ≤ kMaximumControlResponseBytes
          → response.length ≤ kMaximumControlResponseBytes) := by
    intro items
    induction items with
    | nil =>
      intro start h
      cases pure_ok.mp h
      exact ⟨[], .nil, by simp, fun short => short.resolve_left (not_not.mpr rfl)⟩
    | cons item rest ih =>
      intro start h
      simp only [List.foldlM_cons, bind_ok, rejectIf_ok, pure_ok, Nat.not_lt] at h
      obtain ⟨_, ⟨text, written, _, fits, rfl⟩, later⟩ := h
      obtain ⟨texts, others, rfl, short⟩ := ih _ later
      refine ⟨text :: texts, .cons written others, by simp, fun _ => short (.inr ?_)⟩
      simp only [List.length_append, List.length_singleton]
      exact fits
  obtain ⟨texts, written, rfl, short⟩ := loop items _ h
  refine ⟨texts, written, by simp, short ?_⟩
  cases items with
  | cons item rest => exact .inl (List.cons_ne_nil _ _)
  | nil =>
    obtain rfl := Nat.le_zero.mp covered
    exact .inr (by decide)

/-- A response with so many lines of at least this length. -/
theorem framed_room {lines : List Bytes} {width : Nat} (wide : ∀ line ∈ lines, width ≤ line.length + 1) :
    lines.length * width ≤ (framed lines).length := by
  induction lines with
  | nil => simp
  | cons line rest ih =>
    have first := wide line List.mem_cons_self
    have others := ih fun other member => wide other (List.mem_cons_of_mem _ member)
    simp only [framed_cons, List.length_cons, List.length_append, Nat.add_mul]
    omega

/-- A bounded response is a listing while its count is in bounds. -/
theorem lists_of_bounded {count limit : Nat} {texts : List Bytes} {response : Bytes} (small : count ≤ limit)
    (machine : limit ≤ 2 ^ 64 - 1) (whole : response = framed ((ascii "ok " ++ decimal count) :: texts))
    (short : response.length ≤ kMaximumControlResponseBytes) : Lists limit count texts response :=
  ⟨decimal count, numeral_decimal (small.trans machine), small, whole, short⟩

theorem replyLines_framed {message : String} {text : Bytes} {lines : List Bytes}
    (clean : ∀ line ∈ (ascii "ok " ++ text) :: lines, newline ∉ line) :
    replyLines message (framed ((ascii "ok " ++ text) :: lines)) = .ok ((ascii "ok " ++ text) :: lines) := by
  have framing := frame_framed (List.cons_ne_nil _ _) clean
  unfold frame at framing
  split at framing
  · rename_i ended
    simp only [replyLines, bind_ok, rejectIf_ok, pure_ok]
    refine ⟨(), ?_, Option.some.inj framing⟩
    rw [not_or, not_not, not_not]
    refine ⟨?_, ended⟩
    rw [framed_cons, List.append_assoc, List.isPrefixOf_iff_prefix]
    exact List.prefix_append _ _
  · cases framing

theorem listProjects_valid {directories : List Bytes} :
    ∀ name ∈ listProjects directories, isValidProjectName name = true := by
  intro name member
  obtain ⟨filename, _, hosted⟩ := List.mem_filterMap.mp ((List.mem_insertionSort _).mp member)
  simp only [hostedProject] at hosted
  split at hosted
  · split at hosted
    · cases hosted
      assumption
    · cases hosted
  · cases hosted

theorem hostedProject_some {filename project : Bytes} (h : hostedProject filename = some project) :
    filename = project ++ ascii ".git" := by
  simp only [hostedProject] at h
  split at h
  · rename_i ended
    split at h
    · cases h
      obtain ⟨front, rfl⟩ := List.isSuffixOf_iff_suffix.mp ended.2
      simp
    · cases h
  · cases h

theorem listProjects_nodup {directories : List Bytes} (distinct : directories.Nodup) :
    (listProjects directories).Nodup := by
  refine (List.perm_insertionSort _ _).nodup_iff.mpr (distinct.filterMap ?_)
  intro a b project first second
  rw [hostedProject_some first, hostedProject_some second]

theorem counted_header {missing invalid : String} {limit count expected : Nat}
    (h : headerCount missing invalid limit (ascii "ok " ++ decimal count) = .ok expected) : expected ≤ limit :=
  (headerCount_ok.mp h).choose_spec.2.2

theorem header_of_small {missing invalid : String} {limit count : Nat} (small : count ≤ limit)
    (machine : limit ≤ 2 ^ 64 - 1) : headerCount missing invalid limit (ascii "ok " ++ decimal count) = .ok count :=
  headerCount_ok.mpr ⟨decimal count, rfl, numeral_decimal (small.trans machine), small⟩

theorem header_newline (count : Nat) : newline ∉ ascii "ok " ++ decimal count := by
  intro member
  rcases List.mem_append.mp member with inside | inside
  · revert inside
    decide
  · exact decimal_avoids (by decide) inside

/-- The client takes the daemon's list of projects unless it counts too many. -/
theorem projects_accepted {directories : List Bytes} {response : Bytes} (distinct : directories.Nodup)
    (answered : listResponse directories = .ok response) :
    fetchPublishedProjects response = .ok (listProjects directories)
      ↔ (directories.filterMap hostedProject).length ≤ kMaximumControlRefs := by
  obtain ⟨texts, written, rfl, short⟩ := bounded_ok le_rfl answered
  have same : texts = listProjects directories := by
    have pairs := written.imp fun name text (one : Except.ok name = Except.ok text) => Except.ok.inj one
    exact (List.forall₂_eq_eq_eq ▸ pairs).symm
  subst same
  have count : (listProjects directories).length = (directories.filterMap hostedProject).length :=
    List.length_insertionSort _ _
  have framing : replyLines "published project reply has invalid framing"
      (framed ((ascii "ok " ++ decimal (listProjects directories).length) :: listProjects directories)) = .ok _ :=
    replyLines_framed fun line member => by
      rcases List.mem_cons.mp member with rfl | inside
      · exact header_newline _
      · exact not_mem_of_all (printed_project (listProjects_valid line inside)).2 (by decide)
  rw [← count]
  simp only [fetchPublishedProjects, framing, bind_ok, rejectIf_ok, pure_ok, List.drop_one, not_not]
  constructor
  · rintro ⟨lines, same, expected, header, _, _, _, whole, _⟩
    obtain rfl := Except.ok.inj same
    rw [List.tail_cons] at whole
    rw [whole]
    exact counted_header header
  · intro small
    refine ⟨_, rfl, _, header_of_small small (by decide), (), ?_, (), rfl, ?_⟩
    · rw [not_or, not_not, not_not]
      exact ⟨listProjects_valid, listProjects_nodup distinct⟩
    · exact (List.pairwise_insertionSort _ _).insertionSort_eq

/-- for-each-ref with the format the daemon asks for. -/
def forEachRef (refs : List RefTip) : Bytes := framed (refs.map fun ref => ref.name ++ tab :: ref.object_id)

/-- The characters Git allows in the name of a ref. -/
def isGitRefCharacter (character : UInt8) : Bool :=
  0x20 < character && character != 0x7f && !(ascii "~^:?*[\\").contains character

def isGitRefComponent (component : Bytes) : Bool :=
  !component.isEmpty && component.head? != some '.'.toUInt8 && !(ascii ".lock").isSuffixOf component

/-- The names git check-ref-format allows. -/
def isGitRefName (name : Bytes) : Bool :=
  let components := name.splitOn '/'.toUInt8
  name.all isGitRefCharacter && components.all isGitRefComponent && components.length ≥ 2
    && !hasInfix (ascii "..") name && !hasInfix (ascii "@\x7b") name && name.getLast? != some '.'.toUInt8

/-- A branch or tag of a repository. -/
structure HostedRef (ref : RefTip) : Prop where
  allowed : isGitRefName ref.name = true
  held : isHeadOrTag ref.name = true
  object_id : isObjectId ref.object_id = true

theorem HostedRef.characters {ref : RefTip} (hosted : HostedRef ref) : ref.name.all isGitRefCharacter = true := by
  have allowed := hosted.allowed
  simp only [isGitRefName, Bool.and_eq_true] at allowed
  exact allowed.1.1.1.1.1

theorem HostedRef.avoids {ref : RefTip} (hosted : HostedRef ref) {byte : UInt8}
    (excluded : isGitRefCharacter byte = false) : byte ∉ ref.name := not_mem_of_all hosted.characters excluded

theorem HostedRef.filled {ref : RefTip} (hosted : HostedRef ref) : ref.name ≠ [] := by
  intro empty
  have held := hosted.held
  rw [empty] at held
  cases held

theorem HostedRef.read {ref : RefTip} (hosted : HostedRef ref) :
    readListedRef (ref.name ++ tab :: ref.object_id) = .ok ref := by
  have printed := isObjectId_printed hosted.object_id
  unfold readListedRef
  rw [splitFirst_append (hosted.avoids (by decide))]
  simp only [bind_ok, rejectIf_ok, pure_ok]
  refine ⟨(), not_or.mpr ⟨hosted.filled, printed.1⟩, (), ?_, trivial⟩
  simp only [hosted.held, hosted.object_id, not_true_eq_false, false_or, not_exists, not_and]
  intro byte member unsafe_byte
  have control : (ascii " \t\r\n").all (fun c => isGitRefCharacter c == false) = true := by decide
  exact hosted.avoids (beq_iff_eq.mp (List.all_eq_true.mp control byte unsafe_byte)) member

/-- A name the daemon lists is safe for the client when it is short and ASCII. -/
theorem HostedRef.safe_iff {ref : RefTip} (hosted : HostedRef ref) :
    isSafeRefName ref.name = true ↔ ref.name.length ≤ 1024 ∧ ref.name.all (· < 0x80) = true := by
  simp only [isSafeRefName, hosted.held, Bool.true_and, Bool.and_eq_true, decide_eq_true_eq, List.all_eq_true]
  refine and_congr_right fun _ => forall₂_congr fun byte member => ?_
  have allowed := List.all_eq_true.mp hosted.characters byte member
  simp only [isGitRefCharacter, Bool.and_eq_true, bne_iff_ne, ne_eq, decide_eq_true_eq] at allowed
  have other : byte.toNat ≠ 127 := fun same => allowed.1.2 (UInt8.toNat_inj.mp same)
  have above := UInt8.lt_iff_toNat_lt.mp allowed.1.1
  simp only [UInt8.lt_iff_toNat_lt]
  constructor
  · rintro ⟨_, below⟩
    exact below.trans (by decide)
  · intro below
    have below : byte.toNat < 128 := below
    refine ⟨above, ?_⟩
    show byte.toNat < 127
    omega

/-- The client takes the refs of the daemon when every name is safe for it. -/
theorem refs_accepted {refs : List RefTip} {response : Bytes} (distinct : (refs.map (·.name)).Nodup)
    (hosted : ∀ ref ∈ refs, HostedRef ref) (answered : refsResponse (forEachRef refs) = .ok response) :
    parseRefsControlResponse response = .ok refs
      ↔ ∀ ref ∈ refs, ref.name.length ≤ 1024 ∧ ref.name.all (· < 0x80) = true := by
  have clean : ∀ line ∈ refs.map fun ref => ref.name ++ tab :: ref.object_id, newline ∉ line := by
    intro line member inside
    obtain ⟨ref, within, rfl⟩ := List.mem_map.mp member
    rcases List.mem_append.mp inside with name | rest
    · exact (hosted ref within).avoids (by decide) name
    · rcases List.mem_cons.mp rest with same | later
      · exact absurd same (by decide)
      · exact not_mem_of_all (isObjectId_printed (hosted ref within).object_id).2 (by decide) later
  have listed : ((forEachRef refs).splitOn newline).filter (!·.isEmpty)
      = refs.map fun ref => ref.name ++ tab :: ref.object_id := by
    rw [forEachRef, splitOn_framed clean, List.filter_append, List.filter_eq_self.mpr]
    · simp
    · intro line member
      obtain ⟨ref, _, rfl⟩ := List.mem_map.mp member
      simp
  have read : (refs.map fun ref => ref.name ++ tab :: ref.object_id).mapM readListedRef = .ok refs := by
    apply mapM_of_forall₂
    rw [List.forall₂_map_left_iff, List.forall₂_same]
    exact fun ref member => (hosted ref member).read
  simp only [refsResponse, bind_ok, rejectIf_ok, listed, read] at answered
  obtain ⟨_, _, found, same, answered⟩ := answered
  obtain rfl := Except.ok.inj same
  obtain ⟨texts, written, whole, short⟩ := bounded_ok le_rfl answered
  have texts_eq : texts = refs.map refLine := by
    refine (List.forall₂_eq_eq_eq ▸ (List.forall₂_map_left_iff.mpr (written.imp fun ref text one => ?_))).symm
    rw [← Except.ok.inj one, refLine, unwords, List.intercalate_cons_cons, List.intercalate_singleton]
  subst texts_eq
  rw [parseRefs_exact]
  constructor
  · intro text ref member
    exact (hosted ref member).safe_iff.mp (text.safe ref member).1
  · intro safe
    have room : (refs.map refLine).length * 42 ≤ (framed (refs.map refLine)).length := by
      apply framed_room
      intro line member
      obtain ⟨ref, inside, rfl⟩ := List.mem_map.mp member
      have long := (hosted ref inside).object_id
      simp only [isObjectId, Bool.and_eq_true, Bool.or_eq_true, beq_iff_eq] at long
      rw [refLine, unwords, List.intercalate_cons_cons, List.intercalate_singleton]
      simp only [List.length_append, List.length_singleton]
      omega
    have few : refs.length ≤ kMaximumControlRefs := by
      have size : (framed (refs.map refLine)).length ≤ response.length := by
        rw [whole, framed_cons]
        simp only [List.length_append, List.length_cons]
        omega
      rw [List.length_map] at room
      have bound := room.trans (size.trans short)
      simp only [kMaximumControlResponseBytes] at bound
      simp only [kMaximumControlRefs]
      omega
    exact ⟨lists_of_bounded few (by decide) whole short,
      fun ref member => ⟨(hosted ref member).safe_iff.mpr (safe ref member), (hosted ref member).object_id⟩, distinct⟩

/-- What loadClientCheckouts returns: one checkout a project, in order. -/
structure HostedCheckouts (checkouts : List RegisteredCheckout) : Prop where
  valid : ∀ checkout ∈ checkouts, isValidProjectName checkout.project_name = true
  ordered : checkouts.Pairwise fun a b => a.project_name ≤ b.project_name
  distinct : (checkouts.map (·.project_name)).Nodup

theorem decode_encoded {path : Bytes} (safe : isSafeReportedPath path = true) :
    decodeCheckoutPath (hexEncode path) = some path ∧ path ≠ [] := by
  have bounds := safe
  simp only [isSafeReportedPath, Bool.and_eq_true, decide_eq_true_eq] at bounds
  have filled : path ≠ [] := by simpa using bounds.1.1.1
  have printed := (printed_hexEncode filled).1
  have length := hexEncode_length path
  have short := bounds.1.1.2
  refine ⟨?_, filled⟩
  unfold decodeCheckoutPath
  rw [if_neg, hexPairs_hexEncode]
  · exact Option.filter_some_pos safe
  · rw [List.isEmpty_iff, not_or, not_or]
    have small : path.length ≤ Control.kMaximumReportedPathBytes := short
    exact ⟨printed, by omega, by omega⟩

def checkoutLine (checkout : RegisteredCheckout) : Bytes :=
  checkout.project_name ++ space :: hexEncode checkout.reported_path

theorem addCheckout_line {before : List RegisteredCheckout} {checkout : RegisteredCheckout}
    (valid : isValidProjectName checkout.project_name = true)
    (safe : isSafeReportedPath checkout.reported_path = true)
    (fresh : checkout.project_name ∉ before.map (·.project_name)) :
    addCheckout before (checkoutLine checkout) = .ok (before ++ [checkout]) := by
  obtain ⟨decoded, filled⟩ := decode_encoded safe
  have read : readCheckoutRecord (checkoutLine checkout) = .ok checkout := by
    unfold readCheckoutRecord checkoutLine
    rw [splitFirst_append (printed_project valid).isWord.2]
    simp only [decoded]
    rw [if_pos ⟨valid, filled⟩]
    rfl
  simp only [addCheckout, bind_ok, rejectIf_ok, pure_ok]
  exact ⟨_, read, (), fresh, rfl⟩

theorem addCheckouts {checkouts before : List RegisteredCheckout}
    (good : ∀ checkout ∈ checkouts, isValidProjectName checkout.project_name = true
      ∧ isSafeReportedPath checkout.reported_path = true)
    (distinct : ((before ++ checkouts).map (·.project_name)).Nodup) :
    (checkouts.map checkoutLine).foldlM addCheckout before = .ok (before ++ checkouts) := by
  induction checkouts generalizing before with
  | nil => simp [pure, Except.pure]
  | cons checkout rest ih =>
    obtain ⟨valid, safe⟩ := good checkout List.mem_cons_self
    have fresh : checkout.project_name ∉ before.map (·.project_name) := by
      rw [List.map_append] at distinct
      intro member
      exact (List.nodup_append.mp distinct).2.2 _ member _ List.mem_cons_self rfl
    have assoc : before ++ checkout :: rest = before ++ [checkout] ++ rest := by simp
    rw [assoc] at distinct ⊢
    rw [List.map_cons, List.foldlM_cons, bind_ok]
    exact ⟨_, addCheckout_line valid safe fresh,
      ih (fun other member => good other (List.mem_cons_of_mem _ member)) distinct⟩

theorem checkouts_accepted {checkouts : List RegisteredCheckout} {response : Bytes}
    (hosted : HostedCheckouts checkouts) (answered : checkoutsResponse checkouts = .ok response) :
    fetchRegisteredCheckouts response = .ok checkouts := by
  obtain ⟨texts, written, rfl, short⟩ := bounded_ok le_rfl answered
  have lines : List.Forall₂ (fun (checkout : RegisteredCheckout) text =>
      isSafeReportedPath checkout.reported_path = true ∧ checkoutLine checkout = text) checkouts texts := by
    refine written.imp fun checkout text one => ?_
    simp only [encodeCheckoutPath, bind_ok, rejectIf_ok, pure_ok, not_not] at one
    obtain ⟨_, ⟨_, safe, rfl⟩, rfl⟩ := one
    exact ⟨safe, by simp [checkoutLine]⟩
  obtain ⟨safe, shown⟩ := (List.forall₂_and_left _ _).mp lines
  have texts_eq : checkouts.map checkoutLine = texts := by
    rw [← List.forall₂_eq_eq_eq, List.forall₂_map_left_iff]
    exact shown
  subst texts_eq
  have project_printed : ∀ checkout ∈ checkouts, Printed checkout.project_name := fun checkout member =>
    printed_project (hosted.valid checkout member)
  have framing : replyLines "registered checkout reply has invalid framing"
      (framed ((ascii "ok " ++ decimal checkouts.length) :: checkouts.map checkoutLine)) = .ok _ :=
    replyLines_framed fun line member inside => by
      rcases List.mem_cons.mp member with rfl | within
      · exact header_newline _ inside
      · obtain ⟨checkout, listed, rfl⟩ := List.mem_map.mp within
        rcases List.mem_append.mp inside with name | rest
        · exact not_mem_of_all (project_printed checkout listed).2 (by decide) name
        · rcases List.mem_cons.mp rest with same | token
          · exact absurd same (by decide)
          · exact (hexEncode_avoids _).1 token
  have room : (checkouts.map checkoutLine).length * 5 ≤ (framed (checkouts.map checkoutLine)).length := by
    apply framed_room
    intro line member
    obtain ⟨checkout, listed, rfl⟩ := List.mem_map.mp member
    have name := List.length_pos_iff.mpr (project_printed checkout listed).1
    have path := List.length_pos_iff.mpr (decode_encoded (safe checkout listed)).2
    have token := hexEncode_length checkout.reported_path
    simp only [checkoutLine, List.length_append, List.length_cons]
    omega
  have few : checkouts.length ≤ kMaximumControlRefs := by
    rw [List.length_map] at room
    simp only [framed_cons, List.length_append, List.length_cons, kMaximumControlResponseBytes] at short
    simp only [kMaximumControlRefs]
    omega
  simp only [fetchRegisteredCheckouts, framing, bind_ok, rejectIf_ok, pure_ok, List.drop_one, not_not]
  refine ⟨_, rfl, _, header_of_small few (by decide), checkouts, ?_, (), rfl, hosted.ordered.insertionSort_eq⟩
  exact addCheckouts (fun checkout member => ⟨hosted.valid checkout member, safe checkout member⟩) hosted.distinct

/-- What the CI store keeps of a release. -/
structure StoredRelease (release : CiReleaseRecord) : Prop where
  tag : isValidReleaseTag release.tag = true
  commit_id : isValidObjectId release.commit_id = true
  assets : ∀ asset ∈ release.assets, isValidCiArtifactName asset.name = true
    ∧ (asset.sha256 = [] ∨ isValidSha256Hex asset.sha256 = true)

/-- What the listing shows of an asset, and of a release. -/
def listedAsset (asset : CiArtifactRecord) : CiArtifactRecord :=
  { asset with created_epoch_seconds := 0, expires_epoch_seconds := 0, note := [] }

def listedRelease (release : CiReleaseRecord) : CiReleaseRecord :=
  { release with notes := [], assets := release.assets.map listedAsset }

theorem releaseLine_of {release : CiReleaseRecord} {assets : List CiArtifactRecord} (stored : StoredRelease release) :
    ReleaseLine { release with notes := [], assets } (releaseLine release) := by
  refine ⟨decimal release.created_epoch_seconds.toNat, ?_, numeral_counter _, stored.tag, stored.commit_id⟩
  simp only [releaseLine, unwords, List.intercalate_cons_cons, List.intercalate_singleton]
  simp [ascii, space]

theorem assetLine_of {tag : Bytes} {asset : CiArtifactRecord} (name : isValidCiArtifactName asset.name = true)
    (digest : asset.sha256 = [] ∨ isValidSha256Hex asset.sha256 = true) :
    AssetLine tag (listedAsset asset) (assetLine tag asset) := by
  refine ⟨decimal asset.bytes.toNat, ?_, numeral_counter _, name, digest, rfl, rfl, rfl⟩
  simp only [assetLine, listedAsset, unwords, List.intercalate_cons_cons, List.intercalate_singleton]
  simp [ascii, space]

theorem laid_assets {before : List CiReleaseRecord} {release : CiReleaseRecord} {lines : List Bytes}
    {assets : List CiArtifactRecord} (laid : Laid (before ++ [{ release with notes := [], assets := [] }]) lines)
    (good : ∀ asset ∈ assets, isValidCiArtifactName asset.name = true
      ∧ (asset.sha256 = [] ∨ isValidSha256Hex asset.sha256 = true)) :
    Laid (before ++ [{ release with notes := [], assets := assets.map listedAsset }])
      (lines ++ assets.map (assetLine release.tag)) := by
  induction assets using List.reverseRecOn with
  | nil => simpa using laid
  | append_singleton front asset ih =>
    obtain ⟨earlier, last⟩ := List.forall_mem_append.mp good
    obtain ⟨name, digest⟩ := last asset List.mem_cons_self
    have next := (ih earlier).asset (assetLine_of name digest)
    rw [List.map_append, List.map_append, ← List.append_assoc]
    exact next

theorem laid_releases {releases : List CiReleaseRecord} (stored : ∀ release ∈ releases, StoredRelease release) :
    Laid (releases.map listedRelease) (releases.flatMap releaseLines) := by
  induction releases using List.reverseRecOn with
  | nil => exact .nothing
  | append_singleton front release ih =>
    obtain ⟨earlier, last⟩ := List.forall_mem_append.mp stored
    have own := last release List.mem_cons_self
    have bare := (ih earlier).release (releaseLine_of own) ⟨rfl, rfl⟩
    have whole := laid_assets bare own.assets
    rw [List.map_append, List.flatMap_append]
    simpa [releaseLines, listedRelease] using whole

theorem loadReleases_mem {stored : List CiReleaseRecord} (good : ∀ release ∈ stored, StoredRelease release) :
    ∀ release ∈ loadReleases stored, StoredRelease release := by
  intro release member
  obtain ⟨origin, inside, rfl⟩ := List.mem_map.mp ((List.mem_insertionSort _).mp (List.mem_of_mem_take member))
  have held := good origin inside
  exact ⟨held.tag, held.commit_id, fun asset within => held.assets asset ((List.mem_insertionSort _).mp within)⟩

theorem loadReleases_distinct {stored : List CiReleaseRecord} (distinct : (stored.map (·.tag)).Nodup) :
    (((loadReleases stored).map listedRelease).map (·.tag)).Nodup := by
  have tags : ((stored.map sortAssets).map (·.tag)).Nodup := by
    rw [List.map_map]
    exact distinct
  have sorted := (((stored.map sortAssets).perm_insertionSort newestFirst).map (·.tag)).nodup_iff.mpr tags
  rw [List.map_map]
  exact sorted.sublist ((List.take_sublist _ _).map _)

theorem releases_accepted {stored : List CiReleaseRecord} {response : Bytes}
    (good : ∀ release ∈ stored, StoredRelease release) (distinct : (stored.map (·.tag)).Nodup)
    (answered : releasesResponse stored = .ok response) :
    parseReleasesControlResponse response = .ok ((loadReleases stored).map listedRelease) := by
  have covered : (loadReleases stored).length ≤ ((loadReleases stored).flatMap releaseLines).length := by
    rw [List.length_flatMap]
    induction loadReleases stored with
    | nil => exact le_rfl
    | cons release rest ih =>
      have own : 1 ≤ (releaseLines release).length := Nat.le_add_left _ _
      rw [List.length_cons, List.map_cons, List.sum_cons]
      omega
  obtain ⟨texts, written, whole, short⟩ := bounded_ok covered answered
  have texts_eq : (loadReleases stored).flatMap releaseLines = texts := by
    rw [← List.forall₂_eq_eq_eq]
    exact written.imp fun line text (one : Except.ok line = Except.ok text) => Except.ok.inj one
  subst texts_eq
  have few : (loadReleases stored).length ≤ kMaximumControlReleases := List.length_take_le _ _
  rw [parseReleases_exact]
  refine ⟨⟨_, laid_releases (loadReleases_mem good), ?_⟩, loadReleases_distinct distinct⟩
  rw [List.length_map]
  exact lists_of_bounded few (by decide) whole short

/-- What the daemon lists, from the state it lists it from. -/
inductive Listing where
  | projects (directories : List Bytes)
  | refs (tips : List RefTip)
  | checkouts (registered : List RegisteredCheckout)
  | releases (stored : List CiReleaseRecord)

/-- The states a repository root, Git, the metadata and the CI store can be in. -/
def Listing.Hosted (listing : Listing) : Prop :=
  match listing with
  | .projects directories => directories.Nodup
  | .refs tips => (tips.map (·.name)).Nodup ∧ ∀ ref ∈ tips, HostedRef ref
  | .checkouts registered => HostedCheckouts registered
  | .releases stored => (∀ release ∈ stored, StoredRelease release) ∧ (stored.map (·.tag)).Nodup

def Listing.respond (listing : Listing) : Except String Bytes :=
  match listing with
  | .projects directories => listResponse directories
  | .refs tips => refsResponse (forEachRef tips)
  | .checkouts registered => checkoutsResponse registered
  | .releases stored => releasesResponse stored

/-- The client reads exactly the listed entries, in order. -/
def Listing.Accepted (listing : Listing) (response : Bytes) : Prop :=
  match listing with
  | .projects directories => fetchPublishedProjects response = .ok (listProjects directories)
  | .refs tips => parseRefsControlResponse response = .ok tips
  | .checkouts registered => fetchRegisteredCheckouts response = .ok registered
  | .releases stored => parseReleasesControlResponse response = .ok ((loadReleases stored).map listedRelease)

/-- Names the client takes for safe, and no more projects than it counts. -/
def Listing.Fits (listing : Listing) : Prop :=
  match listing with
  | .projects directories => (directories.filterMap hostedProject).length ≤ kMaximumControlRefs
  | .refs tips => ∀ ref ∈ tips, ref.name.length ≤ 1024 ∧ ref.name.all (· < 0x80) = true
  | .checkouts _ => True
  | .releases _ => True

/-- What the refs and releases parsers accept has its count, safe names, every
record in place, and none twice. -/
def Sound (response : Bytes) : Prop :=
  (∀ refs, parseRefsControlResponse response = .ok refs → RefsText refs response)
    ∧ ∀ releases, parseReleasesControlResponse response = .ok releases →
      ReleasesText releases response ∧ ∀ release ∈ releases, (release.assets.map (·.name)).Nodup

/-- Read as releases and assets, the text names no asset twice below a release. -/
def AssetsApart (response : Bytes) : Prop :=
  ∀ releases, ReleasesText releases response → ∀ release ∈ releases, (release.assets.map (·.name)).Nodup

theorem accepted_iff {listing : Listing} {response : Bytes} (hosted : listing.Hosted)
    (answered : listing.respond = .ok response) : listing.Accepted response ↔ listing.Fits := by
  cases listing with
  | projects directories => exact projects_accepted hosted answered
  | refs tips => exact refs_accepted hosted.1 hosted.2 answered
  | checkouts registered => exact ⟨fun _ => trivial, fun _ => checkouts_accepted hosted answered⟩
  | releases stored => exact ⟨fun _ => trivial, fun _ => releases_accepted hosted.1 hosted.2 answered⟩

theorem sound_iff {response : Bytes} : Sound response ↔ AssetsApart response := by
  constructor
  · intro sound releases text
    exact (sound.2 releases (parseReleases_exact.mpr text)).2
  · intro apart
    refine ⟨fun refs read => parseRefs_exact.mp read, fun releases read => ?_⟩
    exact ⟨parseReleases_exact.mp read, apart releases (parseReleases_exact.mp read)⟩

/-- Exactly when the listings meet their parsers: a listing the daemon answers is
accepted when it fits the client, and what is accepted is sound unless a release
names an asset twice. -/
theorem listings_law_iff (listing : Listing) (response : Bytes) (hosted : listing.Hosted) :
    ((listing.respond = .ok response → listing.Accepted response)
        ↔ (listing.respond = .ok response → listing.Fits))
      ∧ (Sound response ↔ AssetsApart response) :=
  ⟨forall_congr' fun answered => accepted_iff hosted answered, sound_iff⟩

def mainRef : RefTip := { name := ascii "refs/heads/main", object_id := List.replicate 40 'a'.toUInt8 }

/-- A branch with an accented letter. -/
def accentedRef : RefTip :=
  { name := ascii "refs/heads/" ++ [0xc3, 0xa9], object_id := List.replicate 40 'a'.toUInt8 }

private theorem accented_table :
    (isGitRefName accentedRef.name = true ∧ isHeadOrTag accentedRef.name = true
      ∧ isObjectId accentedRef.object_id = true)
    ∧ (refsResponse (forEachRef [accentedRef])).toOption.isSome = true := by
  decide +kernel

def tagRef : RefTip := { name := ascii "refs/tags/v1", object_id := List.replicate 40 'b'.toUInt8 }

/-- The answer of the daemon for the two refs. -/
def refsAnswer : Bytes := framed [ascii "ok 2",
  ascii "refs/heads/main " ++ List.replicate 40 'a'.toUInt8, ascii "refs/tags/v1 " ++ List.replicate 40 'b'.toUInt8]

def assetOf (name : String) (bytes : UInt64) (sha256 : Bytes) : CiArtifactRecord :=
  { name := ascii name, bytes, sha256, created_epoch_seconds := 7, expires_epoch_seconds := 0, note := [] }

/-- An older release with two assets, and a newer one without any. -/
def storedReleases : List CiReleaseRecord :=
  [{ tag := ascii "v1", commit_id := List.replicate 40 'a'.toUInt8, created_epoch_seconds := 5, notes := ascii "first"
     assets := [assetOf "tool" 3 (List.replicate 64 'c'.toUInt8), assetOf "docs" 12 []] },
   { tag := ascii "v2", commit_id := List.replicate 40 'b'.toUInt8, created_epoch_seconds := 9 }]

def releasesAnswer : Bytes := framed [ascii "ok 2",
  ascii "release v2 " ++ List.replicate 40 'b'.toUInt8 ++ ascii " 9",
  ascii "release v1 " ++ List.replicate 40 'a'.toUInt8 ++ ascii " 5",
  ascii "asset v1 docs 12 -", ascii "asset v1 tool 3 " ++ List.replicate 64 'c'.toUInt8]

/-- Two refs and two releases: what the daemon answers, and how the client reads it. -/
theorem listings_law_answers :
    ((Listing.refs [mainRef, tagRef]).respond = .ok refsAnswer
      ∧ (Listing.refs [mainRef, tagRef]).Accepted refsAnswer)
    ∧ ((Listing.releases storedReleases).respond = .ok releasesAnswer
      ∧ (Listing.releases storedReleases).Accepted releasesAnswer)
    ∧ Sound releasesAnswer := by
  have refs : (Listing.refs [mainRef, tagRef]).Hosted :=
    ⟨by decide +kernel, fun ref member => by
      rcases List.mem_cons.mp member with rfl | last
      · exact ⟨by decide +kernel, by decide +kernel, by decide +kernel⟩
      · rw [List.mem_singleton.mp last]
        exact ⟨by decide +kernel, by decide +kernel, by decide +kernel⟩⟩
  have refs_answered : (Listing.refs [mainRef, tagRef]).respond = .ok refsAnswer := ok_of_toOption (by decide +kernel)
  have releases : (Listing.releases storedReleases).Hosted :=
    ⟨fun release member => by
      rcases List.mem_cons.mp member with rfl | last
      · exact ⟨by decide +kernel, by decide +kernel, by decide +kernel⟩
      · rw [List.mem_singleton.mp last]
        exact ⟨by decide +kernel, by decide +kernel, by decide +kernel⟩, by decide +kernel⟩
  have releases_answered : (Listing.releases storedReleases).respond = .ok releasesAnswer :=
    ok_of_toOption (by decide +kernel)
  obtain ⟨refs_law, _⟩ := listings_law_iff _ refsAnswer refs
  obtain ⟨releases_law, sound⟩ := listings_law_iff _ releasesAnswer releases
  have accepted := releases_law.mpr (fun _ => trivial) releases_answered
  refine ⟨⟨refs_answered, refs_law.mpr (fun _ => ?_) refs_answered⟩, ⟨releases_answered, accepted⟩, sound.mpr ?_⟩
  · show ∀ ref ∈ [mainRef, tagRef], ref.name.length ≤ 1024 ∧ ref.name.all (· < 0x80) = true
    decide +kernel
  · intro read text
    cases (parseReleases_exact.mpr text).symm.trans accepted
    decide +kernel

/-- Git allows the branch, the daemon lists it, and the client refuses the listing. -/
theorem not_listings_law_accented :
    ¬ ∀ (listing : Listing) (response : Bytes), listing.Hosted →
      (listing.respond = .ok response → listing.Accepted response) ∧ Sound response := by
  intro all
  obtain ⟨allowed, held, object_id⟩ := accented_table.1
  have hosted : (Listing.refs [accentedRef]).Hosted :=
    ⟨List.nodup_singleton _, List.forall_mem_singleton.mpr ⟨allowed, held, object_id⟩⟩
  obtain ⟨response, answers⟩ := Option.isSome_iff_exists.mp accented_table.2
  have answered : (Listing.refs [accentedRef]).respond = .ok response := ok_of_toOption answers
  have fits := (accepted_iff hosted answered).mp ((all _ response hosted).1 answered)
  have ascii_name := (fits accentedRef List.mem_cons_self).2
  exact absurd (List.all_eq_true.mp ascii_name 0xc3 (by simp [accentedRef])) (by decide)

end CkGit.Listings
