import CkGit.Listings.Model
import CkGit.Responses.Lines
import CkGit.Web.Safe

/-!
What the refs and releases parsers accept. The text of a listing is a relation
between its entries and its bytes: a count, then one line for each record, where
only numbers have more than one spelling. Each parser accepts exactly this text;
the releases parser does not look for an asset named twice.
-/
namespace CkGit.Listings
open CkGit.Base CkGit.Ci CkGit.Responses
open CkGit.Base.Grammar (unwords IsWord)

/-- The hex digits of either case are printed. -/
theorem xdigit_table (n : Fin 256) : isXDigit (UInt8.ofFin n) = true → isPrinted (UInt8.ofFin n) = true := by
  revert n
  decide +kernel

theorem isObjectId_printed {object_id : Bytes} (valid : isObjectId object_id = true) : Printed object_id := by
  simp only [isObjectId, Bool.and_eq_true] at valid
  refine ⟨?_, all_printed xdigit_table valid.2⟩
  rintro rfl
  simp at valid

theorem clean_plain {line : Bytes} (clean : CleanLine line) : carriage ∉ line ∧ (0 : UInt8) ∉ line :=
  ⟨not_mem_of_all clean (by decide), not_mem_of_all clean (by decide)⟩

theorem framed_avoids {lines : List Bytes} {byte : UInt8} (other : byte ≠ newline)
    (each : ∀ line ∈ lines, byte ∉ line) : byte ∉ framed lines := by
  intro inside
  obtain ⟨line, member, within⟩ := List.mem_flatMap.mp inside
  rcases List.mem_append.mp within with body | ending
  · exact each line member body
  · exact other (List.mem_singleton.mp ending)

theorem controlLines_ok {kind : String} {response : Bytes} {lines : List Bytes}
    (h : controlLines kind response = .ok lines) :
    response = framed lines ∧ lines ≠ [] ∧ response.length ≤ kMaximumControlResponseBytes := by
  simp only [controlLines, bind_ok, rejectIf_ok, pure_ok] at h
  obtain ⟨_, good, rfl⟩ := h
  simp only [not_or, not_not, Nat.not_lt] at good
  have framing : frame response = some (response.splitOn newline).dropLast := if_pos good.2.2.1
  obtain ⟨whole, some_line, _⟩ := frame_spelled.mp framing
  exact ⟨whole, some_line, good.2.1⟩

theorem controlLines_framed {kind : String} {lines : List Bytes} (some_line : lines ≠ [])
    (clean : ∀ line ∈ lines, CleanLine line) (short : (framed lines).length ≤ kMaximumControlResponseBytes) :
    controlLines kind (framed lines) = .ok lines := by
  have framing : frame (framed lines) = some lines :=
    frame_framed some_line fun line member => (clean line member).newline_notMem
  unfold frame at framing
  split at framing
  · rename_i ended
    have filled : framed lines ≠ [] := by
      intro empty
      rw [empty] at ended
      cases ended
    have noReturn : carriage ∉ framed lines :=
      framed_avoids (by decide) fun line member => (clean_plain (clean line member)).1
    have noZero : (0 : UInt8) ∉ framed lines :=
      framed_avoids (by decide) fun line member => (clean_plain (clean line member)).2
    simp only [controlLines, bind_ok, rejectIf_ok, pure_ok]
    refine ⟨(), ?_, Option.some.inj framing⟩
    simp only [not_or, not_not, Nat.not_lt]
    exact ⟨filled, short, ended, noReturn, noZero⟩
  · cases framing

/-- A number in any spelling from_chars takes. -/
def Numeral (text : Bytes) (value : Nat) : Prop := parseDecimal (2 ^ 64 - 1) text = some value

theorem Numeral.printed {text : Bytes} {value : Nat} (h : Numeral text value) : Printed text := by
  unfold Numeral parseDecimal at h
  split at h
  · rename_i good
    exact ⟨good.1, all_printed (fun n => (printed_table n).1) good.2.1⟩
  · cases h

theorem numeral_decimal {n : Nat} (fits : n ≤ 2 ^ 64 - 1) : Numeral (decimal n) n := parseDecimal_decimal fits

theorem numeral_counter (value : UInt64) : Numeral (decimal value.toNat) value.toNat :=
  numeral_decimal (Nat.le_sub_one_of_lt value.toNat_lt)

theorem headerCount_ok {missing invalid : String} {limit count : Nat} {line : Bytes} :
    headerCount missing invalid limit line = .ok count
      ↔ ∃ text, line = ascii "ok " ++ text ∧ Numeral text count ∧ count ≤ limit := by
  unfold headerCount
  constructor
  · intro h
    split at h
    · cases h
    · rename_i text found
      split at h
      · cases h
      · rename_i value read
        split at h
        · cases h
        · cases h
          exact ⟨text, expectField_some found, read, Nat.not_lt.mp ‹_›⟩
  · rintro ⟨text, rfl, read, small⟩
    have number : parseDecimal (2 ^ 64 - 1) text = some count := read
    simp only [expectField_append, number, if_neg (Nat.not_lt.mpr small)]

theorem header_clean {text : Bytes} {count : Nat} (number : Numeral text count) :
    CleanLine (ascii "ok " ++ text) := by
  have words : ascii "ok " ++ text = unwords [ascii "ok", text] := by
    rw [unwords, List.intercalate_cons_cons, List.intercalate_singleton]
    exact congrArg (· ++ text) (show ascii "ok " = ascii "ok" ++ [space] by decide)
  rw [words]
  refine unwords_clean fun word member => ?_
  rcases List.mem_cons.mp member with rfl | last
  · decide
  · rw [List.mem_singleton.mp last]
    exact number.printed.2

/-- The text of a listing: its count, its records and nothing else. -/
def Lists (limit count : Nat) (records : List Bytes) (response : Bytes) : Prop :=
  ∃ text, Numeral text count ∧ count ≤ limit ∧ response = framed ((ascii "ok " ++ text) :: records)
    ∧ response.length ≤ kMaximumControlResponseBytes

/-- Both parsers read a header and the records below it. -/
theorem listing_lines {kind missing invalid : String} {limit count : Nat} {response : Bytes} {lines : List Bytes}
    (framing : controlLines kind response = .ok lines)
    (header : headerCount missing invalid limit (lines.headD []) = .ok count) :
    Lists limit count (lines.drop 1) response := by
  obtain ⟨whole, some_line, short⟩ := controlLines_ok framing
  obtain ⟨text, first, number, small⟩ := headerCount_ok.mp header
  obtain ⟨line, rest, rfl⟩ := List.exists_cons_of_ne_nil some_line
  rw [List.headD_cons] at first
  subst first
  exact ⟨text, number, small, whole, short⟩

theorem Lists.read {limit count : Nat} {records : List Bytes} {response : Bytes} {kind missing invalid : String}
    (h : Lists limit count records response) (clean : ∀ line ∈ records, CleanLine line) :
    ∃ first, controlLines kind response = .ok (first :: records)
      ∧ headerCount missing invalid limit first = .ok count := by
  obtain ⟨text, number, small, rfl, short⟩ := h
  refine ⟨ascii "ok " ++ text, controlLines_framed (List.cons_ne_nil _ _) ?_ short,
    headerCount_ok.mpr ⟨text, rfl, number, small⟩⟩
  intro line member
  rcases List.mem_cons.mp member with rfl | inside
  · exact header_clean number
  · exact clean line inside

theorem unwords_filled {keyword field : Bytes} {rest : List Bytes} : unwords (keyword :: field :: rest) ≠ [] := by
  rw [unwords, List.intercalate_cons_cons]
  simp

def refLine (ref : RefTip) : Bytes := unwords [ref.name, ref.object_id]

/-- The refs response of these tips, no name twice. -/
structure RefsText (refs : List RefTip) (response : Bytes) : Prop where
  lists : Lists kMaximumControlRefs refs.length (refs.map refLine) response
  safe : ∀ ref ∈ refs, isSafeRefName ref.name = true ∧ isObjectId ref.object_id = true
  distinct : (refs.map (·.name)).Nodup

theorem safeName_printed {name : Bytes} (safe : isSafeRefName name = true) : Printed name := by
  simp only [isSafeRefName, Bool.and_eq_true] at safe
  refine ⟨?_, List.all_eq_true.mpr fun byte member => ?_⟩
  · rintro rfl
    exact absurd safe.1.1 (by decide)
  · have bounds := List.all_eq_true.mp safe.2 byte member
    simp only [Bool.and_eq_true, decide_eq_true_eq, UInt8.lt_iff_toNat_lt] at bounds
    simp only [isPrinted, Bool.and_eq_true, decide_eq_true_eq, UInt8.le_iff_toNat_le]
    exact ⟨bounds.1, Nat.le_of_lt_succ bounds.2⟩

theorem readRefRecord_ok {line : Bytes} {ref : RefTip} :
    readRefRecord line = .ok ref
      ↔ line = refLine ref ∧ isSafeRefName ref.name = true ∧ isObjectId ref.object_id = true := by
  unfold readRefRecord
  constructor
  · intro h
    simp only [bind_ok, rejectIf_ok] at h
    obtain ⟨_, filled, h⟩ := h
    split at h
    · rename_i name object_id pieces
      simp only [bind_ok, rejectIf_ok, pure_ok] at h
      obtain ⟨_, _, _, good, rfl⟩ := h
      simp only [not_or, not_not] at good
      refine ⟨?_, good⟩
      rw [refLine, unwords, ← pieces, List.intercalate_splitOn]
    · cases h
  · rintro ⟨rfl, safe, valid⟩
    have name := (safeName_printed safe).isWord
    have object_id := (isObjectId_printed valid).isWord
    have pieces : (refLine ref).splitOn space = [ref.name, ref.object_id] := by
      refine List.splitOn_intercalate space (fun piece member => ?_) (List.cons_ne_nil _ _)
      rcases List.mem_cons.mp member with rfl | last
      · exact name.2
      · rw [List.mem_singleton.mp last]
        exact object_id.2
    simp only [bind_ok, rejectIf_ok, pieces, pure_ok]
    refine ⟨(), unwords_filled, (), ?_, (), ?_, trivial⟩
    · exact not_or.mpr ⟨name.1, object_id.1⟩
    · simp [safe, valid]

/-- The refs parser accepts exactly the text of its result. -/
theorem parseRefs_exact {response : Bytes} {refs : List RefTip} :
    parseRefsControlResponse response = .ok refs ↔ RefsText refs response := by
  constructor
  · intro h
    simp only [parseRefsControlResponse, bind_ok, rejectIf_ok, pure_ok, not_not] at h
    obtain ⟨lines, framing, expected, header, found, read, _, count, _, distinct, rfl⟩ := h
    have pairs := (mapM_ok read).imp fun line ref same => readRefRecord_ok.mp same
    have same : lines.drop 1 = found.map refLine := by
      rw [← List.forall₂_eq_eq_eq, List.forall₂_map_right_iff]
      exact pairs.imp fun line ref fine => fine.1
    refine ⟨?_, ?_, distinct⟩
    · rw [← same, count]
      exact listing_lines framing header
    · exact mapM_forall (fun line ref one => (readRefRecord_ok.mp one).2) read
  · intro text
    have clean : ∀ line ∈ refs.map refLine, CleanLine line := by
      intro line member
      obtain ⟨ref, inside, rfl⟩ := List.mem_map.mp member
      obtain ⟨safe, valid⟩ := text.safe ref inside
      refine unwords_clean fun word within => ?_
      rcases List.mem_cons.mp within with rfl | last
      · exact (safeName_printed safe).2
      · rw [List.mem_singleton.mp last]
        exact (isObjectId_printed valid).2
    obtain ⟨first, framing, header⟩ := @Lists.read _ _ _ _ "refs" "refs response has no valid ok count"
      "refs response has an invalid count" text.lists clean
    have read : (refs.map refLine).mapM readRefRecord = .ok refs := by
      apply mapM_of_forall₂
      rw [List.forall₂_map_left_iff, List.forall₂_same]
      exact fun ref member => readRefRecord_ok.mpr ⟨rfl, text.safe ref member⟩
    simp only [parseRefsControlResponse, bind_ok, rejectIf_ok, pure_ok, not_not]
    exact ⟨_, framing, _, header, refs, read, (), rfl, (), text.distinct, rfl⟩

/-- The line of a release. -/
def ReleaseLine (release : CiReleaseRecord) (line : Bytes) : Prop :=
  ∃ created, line = unwords [ascii "release", release.tag, release.commit_id, created]
    ∧ Numeral created release.created_epoch_seconds.toNat
    ∧ isValidReleaseTag release.tag = true ∧ isValidObjectId release.commit_id = true

/-- The line of an asset of the release with this tag. -/
def AssetLine (tag : Bytes) (asset : CiArtifactRecord) (line : Bytes) : Prop :=
  ∃ bytes, line = unwords [ascii "asset", tag, asset.name, bytes, checksumText asset.sha256]
    ∧ Numeral bytes asset.bytes.toNat ∧ isValidCiArtifactName asset.name = true
    ∧ (asset.sha256 = [] ∨ isValidSha256Hex asset.sha256 = true)
    ∧ asset.created_epoch_seconds = 0 ∧ asset.expires_epoch_seconds = 0 ∧ asset.note = []

/-- Releases line by line, the assets of each below it. -/
inductive Laid : List CiReleaseRecord → List Bytes → Prop
  | nothing : Laid [] []
  | release {releases : List CiReleaseRecord} {lines : List Bytes} {release : CiReleaseRecord} {line : Bytes}
      (before : Laid releases lines) (own : ReleaseLine release line)
      (bare : release.notes = [] ∧ release.assets = []) : Laid (releases ++ [release]) (lines ++ [line])
  | asset {releases : List CiReleaseRecord} {lines : List Bytes} {release : CiReleaseRecord}
      {asset : CiArtifactRecord} {line : Bytes} (before : Laid (releases ++ [release]) lines)
      (own : AssetLine release.tag asset line) :
      Laid (releases ++ [{ release with assets := release.assets ++ [asset] }]) (lines ++ [line])

/-- The releases response of these releases, no tag twice. -/
structure ReleasesText (releases : List CiReleaseRecord) (response : Bytes) : Prop where
  laid : ∃ lines, Laid releases lines ∧ Lists kMaximumControlReleases releases.length lines response
  distinct : (releases.map (·.tag)).Nodup

theorem splitReleaseFields_ok {keyword line : Bytes} {fields : List Bytes} {expected : Nat} (word : IsWord keyword)
    (starts : ((keyword ++ [space]).isPrefixOf line) = true) :
    splitReleaseFields line expected = .ok fields ↔ ∃ rest, fields = keyword :: rest
      ∧ rest.length + 1 = expected ∧ line = unwords fields ∧ ∀ field ∈ rest, IsWord field := by
  obtain ⟨tail, rfl⟩ := List.isPrefixOf_iff_prefix.mp starts
  have pieces : (keyword ++ [space] ++ tail).splitOn space = keyword :: tail.splitOn space := by
    have whole : keyword ++ [space] ++ tail = unwords (keyword :: tail.splitOn space) := by
      obtain ⟨first, rest, same⟩ := List.exists_cons_of_ne_nil (List.splitOn_ne_nil space tail)
      rw [unwords, same, List.intercalate_cons_cons, ← same, List.intercalate_splitOn, List.append_assoc]
    rw [whole, unwords]
    refine List.splitOn_intercalate space (fun piece member => ?_) (List.cons_ne_nil _ _)
    rcases List.mem_cons.mp member with rfl | inside
    · exact word.2
    · exact Grammar.splitOn_avoids inside
  simp only [splitReleaseFields, bind_ok, rejectIf_ok, pure_ok, not_or, not_not]
  constructor
  · rintro ⟨_, ⟨length, filled⟩, rfl⟩
    refine ⟨tail.splitOn space, pieces, ?_, ?_, ?_⟩
    · rw [pieces] at length
      exact length
    · rw [unwords, List.intercalate_splitOn]
    · intro field member
      rw [pieces] at filled
      refine ⟨?_, Grammar.splitOn_avoids member⟩
      rintro rfl
      exact filled (List.mem_cons_of_mem _ member)
  · rintro ⟨rest, rfl, length, whole, words⟩
    have same : (keyword ++ [space] ++ tail).splitOn space = keyword :: rest := by
      rw [whole, unwords]
      refine List.splitOn_intercalate space (fun piece member => ?_) (List.cons_ne_nil _ _)
      rcases List.mem_cons.mp member with rfl | inside
      · exact word.2
      · exact (words piece inside).2
    have filled : [] ∉ keyword :: rest := by
      intro member
      rcases List.mem_cons.mp member with empty | inside
      · exact word.1 empty.symm
      · exact (words [] inside).1 rfl
    exact ⟨(), ⟨by rw [same]; exact length, by rw [same]; exact filled⟩, same⟩

theorem parseReleaseCounter_ok {what : String} {field : Bytes} {value : UInt64} :
    parseReleaseCounter what field = .ok value ↔ Numeral field value.toNat := by
  unfold parseReleaseCounter Numeral
  constructor
  · intro h
    split at h
    · rename_i number read
      cases h
      have small : number ≤ 2 ^ 64 - 1 := parseDecimal_le read
      rw [read, UInt64.toNat_ofNat_of_lt' (Nat.lt_of_le_of_lt small (by decide))]
    · cases h
  · intro read
    rw [read]
    exact congrArg Except.ok (UInt64.ofNat_toNat)

theorem readReleaseChecksum_ok {field sha256 : Bytes} :
    readReleaseChecksum field = .ok sha256
      ↔ field = checksumText sha256 ∧ (sha256 = [] ∨ isValidSha256Hex sha256 = true) := by
  unfold readReleaseChecksum checksumText
  constructor
  · intro h
    split at h
    · rename_i same
      cases pure_ok.mp h
      exact ⟨same, .inl rfl⟩
    · simp only [bind_ok, rejectIf_ok, pure_ok, not_not] at h
      obtain ⟨_, valid, rfl⟩ := h
      refine ⟨?_, .inr valid⟩
      rw [if_neg]
      rintro empty
      rw [List.isEmpty_iff.mp empty] at valid
      cases valid
  · rintro ⟨rfl, rfl | valid⟩
    · rfl
    · have filled : ¬ sha256.isEmpty = true := by
        intro empty
        rw [List.isEmpty_iff.mp empty] at valid
        cases valid
      have other : sha256 ≠ dash := by
        rintro rfl
        cases valid
      rw [if_neg filled, if_neg other]
      simp only [bind_ok, rejectIf_ok, pure_ok, not_not]
      exact ⟨(), valid, trivial⟩

theorem releaseTag_printed {tag : Bytes} (valid : isValidReleaseTag tag = true) : Printed tag := by
  simp only [isValidReleaseTag, Bool.and_eq_true] at valid
  refine ⟨?_, all_printed (fun n => (printed_table n).2.2.1) valid.2⟩
  rintro rfl
  simp at valid

theorem checksum_printed {sha256 : Bytes} (valid : sha256 = [] ∨ isValidSha256Hex sha256 = true) :
    Printed (checksumText sha256) := by
  rcases valid with rfl | valid
  · exact ⟨by decide, by decide⟩
  · have filled : sha256 ≠ [] := by
      rintro rfl
      cases valid
    have text : checksumText sha256 = sha256 := by
      unfold checksumText
      rw [if_neg]
      rwa [List.isEmpty_iff]
    simp only [isValidSha256Hex, Bool.and_eq_true] at valid
    rw [text]
    exact ⟨filled, lowercaseHex_printed valid.2⟩

theorem ReleaseLine.words {release : CiReleaseRecord} {line : Bytes} (own : ReleaseLine release line) :
    ∃ created, line = unwords [ascii "release", release.tag, release.commit_id, created]
      ∧ ∀ field ∈ [release.tag, release.commit_id, created], Printed field := by
  obtain ⟨created, rfl, number, tag, commit⟩ := own
  refine ⟨created, rfl, ?_⟩
  simp only [List.forall_mem_cons]
  exact ⟨releaseTag_printed tag, printed_object commit, number.printed, nofun⟩

theorem AssetLine.words {tag line : Bytes} {asset : CiArtifactRecord} (printed : Printed tag)
    (own : AssetLine tag asset line) :
    ∃ bytes, line = unwords [ascii "asset", tag, asset.name, bytes, checksumText asset.sha256]
      ∧ ∀ field ∈ [tag, asset.name, bytes, checksumText asset.sha256], Printed field := by
  obtain ⟨bytes, rfl, number, name, sha256, _⟩ := own
  refine ⟨bytes, rfl, ?_⟩
  simp only [List.forall_mem_cons]
  exact ⟨printed, printed_artifact name, number.printed, checksum_printed sha256, nofun⟩

theorem record_starts {keyword : Bytes} {field : Bytes} {rest : List Bytes} :
    (keyword ++ [space]).isPrefixOf (unwords (keyword :: field :: rest)) = true := by
  rw [List.isPrefixOf_iff_prefix, unwords, List.intercalate_cons_cons]
  exact List.prefix_append _ _

/-- A line of the response adds a release, or an asset to the last one. -/
theorem readReleaseRecord_ok {releases next : List CiReleaseRecord} {line : Bytes}
    (h : readReleaseRecord releases line = .ok next) :
    (∃ release, ReleaseLine release line ∧ (release.notes = [] ∧ release.assets = [])
        ∧ release.tag ∉ releases.map (·.tag) ∧ next = releases ++ [release])
      ∨ ∃ before current asset, releases = before ++ [current] ∧ AssetLine current.tag asset line
        ∧ next = before ++ [{ current with assets := current.assets ++ [asset] }] := by
  simp only [readReleaseRecord, bind_ok, rejectIf_ok] at h
  obtain ⟨_, _, h⟩ := h
  split at h
  · rename_i starts
    simp only [bind_ok, rejectIf_ok, pure_ok] at h
    obtain ⟨fields, split, _, valid, _, fresh, created, number, rfl⟩ := h
    obtain ⟨rest, rfl, length, whole, _⟩ :=
      (@splitReleaseFields_ok (ascii "release") _ _ _ ⟨by decide, by decide⟩ starts).mp split
    match rest, length with
    | [tag, commit, epoch], _ =>
      simp only [not_or, not_not] at valid
      exact .inl ⟨_, ⟨epoch, whole, parseReleaseCounter_ok.mp number, valid⟩, ⟨rfl, rfl⟩, fresh, rfl⟩
  · split at h
    · rename_i starts
      split at h
      · cases h
      · rename_i current last
        obtain ⟨before, rfl⟩ := List.getLast?_eq_some_iff.mp last
        simp only [bind_ok, rejectIf_ok, pure_ok, not_not, List.dropLast_concat] at h
        obtain ⟨fields, split, _, tag, _, valid, bytes, number, sha256, read, rfl⟩ := h
        obtain ⟨rest, rfl, length, whole, _⟩ :=
          (@splitReleaseFields_ok (ascii "asset") _ _ _ ⟨by decide, by decide⟩ starts).mp split
        match rest, length with
        | [under, name, size, checksum], _ =>
          obtain ⟨spelled, good⟩ := readReleaseChecksum_ok.mp read
          have same : under = current.tag := tag
          have shown : checksum = checksumText sha256 := spelled
          subst same shown
          exact .inr ⟨before, current, _, rfl,
            ⟨size, whole, parseReleaseCounter_ok.mp number, valid, good, rfl, rfl, rfl⟩, rfl⟩
    · cases h

theorem readReleaseRecord_release {releases : List CiReleaseRecord} {release : CiReleaseRecord} {line : Bytes}
    (own : ReleaseLine release line) (bare : release.notes = [] ∧ release.assets = [])
    (fresh : release.tag ∉ releases.map (·.tag)) :
    readReleaseRecord releases line = .ok (releases ++ [release]) := by
  obtain ⟨tag, commit_id, created_epoch_seconds, notes, assets⟩ := release
  obtain ⟨rfl, rfl⟩ := bare
  obtain ⟨created, rfl, number, valid⟩ := own
  have printed : ∀ field ∈ [tag, commit_id, created], Printed field := by
    simp only [List.forall_mem_cons]
    exact ⟨releaseTag_printed valid.1, printed_object valid.2, number.printed, nofun⟩
  have split : splitReleaseFields (unwords [ascii "release", tag, commit_id, created]) 4
      = .ok [ascii "release", tag, commit_id, created] :=
    (splitReleaseFields_ok ⟨by decide, by decide⟩ record_starts).mpr
      ⟨_, rfl, rfl, rfl, fun field member => (printed field member).isWord⟩
  simp only [readReleaseRecord, bind_ok, rejectIf_ok]
  refine ⟨(), unwords_filled, ?_⟩
  have starts : (ascii "release ").isPrefixOf (unwords [ascii "release", tag, commit_id, created]) = true :=
    @record_starts (ascii "release") _ _
  rw [if_pos starts]
  simp only [bind_ok, rejectIf_ok, pure_ok, not_or, not_not]
  exact ⟨_, split, (), valid, (), fresh, _, parseReleaseCounter_ok.mpr number, rfl⟩

theorem readReleaseRecord_asset {before : List CiReleaseRecord} {current : CiReleaseRecord}
    {asset : CiArtifactRecord} {line : Bytes} (tag : isValidReleaseTag current.tag = true)
    (own : AssetLine current.tag asset line) :
    readReleaseRecord (before ++ [current]) line
      = .ok (before ++ [{ current with assets := current.assets ++ [asset] }]) := by
  obtain ⟨name, size, sha256, created_epoch_seconds, expires_epoch_seconds, note⟩ := asset
  obtain ⟨bytes, rfl, number, valid, digest, rfl, rfl, rfl⟩ := own
  have printed : ∀ field ∈ [current.tag, name, bytes, checksumText sha256], Printed field := by
    simp only [List.forall_mem_cons]
    exact ⟨releaseTag_printed tag, printed_artifact valid, number.printed, checksum_printed digest, nofun⟩
  have split : splitReleaseFields (unwords [ascii "asset", current.tag, name, bytes, checksumText sha256]) 5
      = .ok [ascii "asset", current.tag, name, bytes, checksumText sha256] :=
    (splitReleaseFields_ok ⟨by decide, by decide⟩ record_starts).mpr
      ⟨_, rfl, rfl, rfl, fun field member => (printed field member).isWord⟩
  have other : ¬ (ascii "release ").isPrefixOf
      (unwords [ascii "asset", current.tag, name, bytes, checksumText sha256]) = true := by
    rw [unwords, List.intercalate_cons_cons]
    exact Bool.false_ne_true
  simp only [readReleaseRecord, bind_ok, rejectIf_ok]
  refine ⟨(), unwords_filled, ?_⟩
  have starts : (ascii "asset ").isPrefixOf
      (unwords [ascii "asset", current.tag, name, bytes, checksumText sha256]) = true :=
    @record_starts (ascii "asset") _ _
  rw [if_neg other, if_pos starts]
  simp only [List.getLast?_concat, List.dropLast_concat, bind_ok, rejectIf_ok, pure_ok, not_not]
  exact ⟨_, split, (), rfl, (), valid, _, parseReleaseCounter_ok.mpr number, _,
    readReleaseChecksum_ok.mpr ⟨rfl, digest⟩, rfl⟩

theorem Laid.tags {releases : List CiReleaseRecord} {lines : List Bytes} (laid : Laid releases lines) :
    ∀ release ∈ releases, isValidReleaseTag release.tag = true := by
  induction laid with
  | nothing => exact nofun
  | release before own bare ih =>
    obtain ⟨_, _, _, tag, _⟩ := own
    exact List.forall_mem_append.mpr ⟨ih, List.forall_mem_singleton.mpr tag⟩
  | @asset _ _ release _ _ before own ih =>
    obtain ⟨earlier, last⟩ := List.forall_mem_append.mp ih
    exact List.forall_mem_append.mpr
      ⟨earlier, List.forall_mem_singleton.mpr (last release List.mem_cons_self)⟩

theorem Laid.clean {releases : List CiReleaseRecord} {lines : List Bytes} (laid : Laid releases lines) :
    ∀ line ∈ lines, CleanLine line := by
  induction laid with
  | nothing => exact nofun
  | release before own bare ih =>
    obtain ⟨created, rfl, printed⟩ := own.words
    exact List.forall_mem_append.mpr ⟨ih, List.forall_mem_singleton.mpr (record_clean (by decide) printed)⟩
  | asset before own ih =>
    have tag := before.tags _ (List.mem_append_right _ List.mem_cons_self)
    obtain ⟨bytes, rfl, printed⟩ := own.words (releaseTag_printed tag)
    exact List.forall_mem_append.mpr ⟨ih, List.forall_mem_singleton.mpr (record_clean (by decide) printed)⟩

theorem laid_of_foldlM {releases : List CiReleaseRecord} {lines : List Bytes}
    (h : lines.foldlM readReleaseRecord [] = .ok releases) :
    Laid releases lines ∧ (releases.map (·.tag)).Nodup := by
  induction lines using List.reverseRecOn generalizing releases with
  | nil =>
    cases h
    exact ⟨.nothing, List.nodup_nil⟩
  | append_singleton front line ih =>
    rw [List.foldlM_append, bind_ok] at h
    obtain ⟨middle, earlier, last⟩ := h
    obtain ⟨laid, distinct⟩ := ih earlier
    rw [List.foldlM_cons, bind_ok] at last
    obtain ⟨after, step, done⟩ := last
    cases done
    rcases readReleaseRecord_ok step with ⟨release, own, bare, fresh, rfl⟩ | ⟨before, current, asset, rfl, own, rfl⟩
    · refine ⟨laid.release own bare, ?_⟩
      rw [List.map_append]
      exact List.nodup_append.mpr ⟨distinct, List.nodup_singleton _, fun tag member other last => by
        rw [List.mem_singleton.mp last]
        rintro rfl
        exact fresh member⟩
    · refine ⟨laid.asset own, ?_⟩
      simpa using distinct

theorem Laid.foldlM {releases : List CiReleaseRecord} {lines : List Bytes} (laid : Laid releases lines)
    (distinct : (releases.map (·.tag)).Nodup) : lines.foldlM readReleaseRecord [] = .ok releases := by
  induction laid with
  | nothing => rfl
  | release before own bare ih =>
    rw [List.map_append] at distinct
    obtain ⟨earlier, _, apart⟩ := List.nodup_append.mp distinct
    have fresh : ∀ tag ∈ _, tag ≠ _ := fun tag member => apart tag member _ List.mem_cons_self
    rw [List.foldlM_append, bind_ok]
    have step := readReleaseRecord_release own bare fun member => fresh _ member rfl
    exact ⟨_, ih earlier, bind_ok.mpr ⟨_, step, rfl⟩⟩
  | asset before own ih =>
    have tag := before.tags _ (List.mem_append_right _ List.mem_cons_self)
    have earlier := ih (by simpa using distinct)
    rw [List.foldlM_append, bind_ok]
    exact ⟨_, earlier, bind_ok.mpr ⟨_, readReleaseRecord_asset tag own, rfl⟩⟩

/-- The releases parser accepts exactly the text of its result. -/
theorem parseReleases_exact {response : Bytes} {releases : List CiReleaseRecord} :
    parseReleasesControlResponse response = .ok releases ↔ ReleasesText releases response := by
  constructor
  · intro h
    simp only [parseReleasesControlResponse, bind_ok, rejectIf_ok, pure_ok, not_not] at h
    obtain ⟨lines, framing, expected, header, found, read, _, count, rfl⟩ := h
    obtain ⟨laid, distinct⟩ := laid_of_foldlM read
    refine ⟨⟨_, laid, ?_⟩, distinct⟩
    rw [count]
    exact listing_lines framing header
  · rintro ⟨⟨lines, laid, lists⟩, distinct⟩
    obtain ⟨first, framing, header⟩ := @Lists.read _ _ _ _ "releases" "releases response has no valid ok count"
      "releases response has an invalid count" lists laid.clean
    simp only [parseReleasesControlResponse, bind_ok, rejectIf_ok, pure_ok, not_not]
    exact ⟨_, framing, _, header, releases, laid.foldlM distinct, (), rfl, rfl⟩

end CkGit.Listings
