import CkGit.Responses.Model
import CkGit.Ci.JobCodec

/-!
Each field of a response line: what its reader takes is what its writer gives,
and what a writer gives is a word of printable characters.
-/
namespace CkGit.Responses
open CkGit.Base CkGit.Base.Grammar CkGit.Ci

theorem parseNumber_spelled {field : Bytes} {n : UInt64} : parseNumber field = some n ↔ field = decimal n.toNat := by
  have bound : n.toNat ≤ 2 ^ 64 - 1 := Nat.le_sub_one_of_lt n.toNat_lt
  constructor
  · intro read
    unfold parseNumber at read
    split at read
    · cases read
    · rename_i unpadded
      obtain ⟨m, number, rfl⟩ := Option.map_eq_some_iff.mp read
      have small := parseDecimal_le number
      have spelled : plain field = true := by simpa [plain, imp_iff_not_or] using unpadded
      obtain ⟨-, same⟩ := parseDecimal_plain.mp ⟨number, spelled⟩
      rw [UInt64.toNat_ofNat_of_lt' (Nat.lt_of_le_of_lt small (by decide))]
      exact same
  · rintro rfl
    have spelled := plain_decimal n.toNat
    have unpadded : ¬ ((decimal n.toNat).length > 1 ∧ (decimal n.toNat).head? = some zero) := by
      simpa [plain, imp_iff_not_or] using spelled
    simp only [parseNumber, if_neg unpadded, parseDecimal_decimal bound, Option.map_some, UInt64.ofNat_toNat]

theorem hexEncode_ne_dash (text : Bytes) : hexEncode text ≠ dash := by
  intro same
  have lengths := congrArg List.length same
  rw [hexEncode_length] at lengths
  have one : dash.length = 1 := rfl
  omega

theorem decodeText_spelled {field text : Bytes} {maximum_bytes : Nat} :
    decodeText field maximum_bytes = some text ↔ text.length ≤ maximum_bytes ∧ field = encodeText text := by
  by_cases blank : field = dash
  · subst blank
    constructor
    · intro read
      obtain rfl : [] = text := by simpa [decodeText] using read
      exact ⟨Nat.zero_le _, rfl⟩
    · rintro ⟨-, same⟩
      cases text with
      | nil => rfl
      | cons byte rest => exact absurd same.symm (hexEncode_ne_dash _)
  · simp only [decodeText, if_neg blank, Option.filter_eq_some_iff, hexDecode_spelled]
    constructor
    · rintro ⟨⟨short, rfl⟩, filled⟩
      refine ⟨short, ?_⟩
      cases text with
      | nil => cases filled
      | cons byte rest => rfl
    · rintro ⟨short, rfl⟩
      cases text with
      | nil => exact absurd rfl blank
      | cons byte rest => exact ⟨⟨short, rfl⟩, rfl⟩

/-- A word that is one of two. -/
theorem either_spelled {field first second : Bytes} (apart : second ≠ first) (word : Bool) {value : Bool} :
    (if field = first then some word else if field = second then some (!word) else none) = some value
      ↔ field = if value = word then first else second := by
  constructor
  · intro read
    split at read
    · obtain rfl := Option.some.inj read
      rw [if_pos rfl]
      assumption
    · split at read
      · obtain rfl := Option.some.inj read
        rw [if_neg (Bool.not_ne_self word)]
        assumption
      · cases read
  · rintro rfl
    by_cases same : value = word
    · rw [if_pos same, if_pos rfl, same]
    · rw [if_neg same, if_neg apart, if_pos rfl, Bool.eq_not.mpr same]

theorem parseFlag_spelled {field : Bytes} {value : Bool} : parseFlag field = some value ↔ field = flag value := by
  refine (either_spelled (by decide) false).trans ?_
  cases value <;> exact Iff.rfl

theorem readEnabled_spelled {field : Bytes} {value : Bool} :
    readEnabled field = some value ↔ field = ascii (if value then "enabled" else "disabled") := by
  refine (either_spelled (by decide) true).trans ?_
  cases value <;> exact Iff.rfl

theorem readComplete_spelled {field : Bytes} {value : Bool} :
    readComplete field = some value ↔ field = ascii (if value then "end" else "more") := by
  refine (either_spelled (by decide) false).trans ?_
  cases value <;> exact Iff.rfl

/-- A name that may be left out. -/
theorem orDash_spelled {valid : Bytes → Bool} (noDash : valid dash = false) (filled : valid [] = false)
    {field name : Bytes} :
    (if field = dash then some [] else if valid field then some field else none) = some name
      ↔ (name.isEmpty || valid name) = true ∧ field = orDash name := by
  constructor
  · intro read
    split at read
    · obtain rfl := Option.some.inj read
      rename_i blank
      exact ⟨rfl, blank⟩
    · split at read
      · rename_i good
        obtain rfl := Option.some.inj read
        refine ⟨by rw [good, Bool.or_true], ?_⟩
        cases field with
        | nil => rw [filled] at good; cases good
        | cons byte rest => rfl
      · cases read
  · rintro ⟨good, rfl⟩
    cases name with
    | nil => rfl
    | cons byte rest =>
      have fine : valid (byte :: rest) = true := by simpa using good
      have same : orDash (byte :: rest) = byte :: rest := rfl
      have named : byte :: rest ≠ dash := by
        intro blank
        rw [blank, noDash] at fine
        cases fine
      rw [same, if_neg named, if_pos fine]

theorem readSha256_spelled {field digest : Bytes} :
    readSha256 field = some digest ↔ (digest.isEmpty || isValidSha256Hex digest) = true ∧ field = orDash digest :=
  orDash_spelled (by decide) (by decide)

theorem readRunner_spelled {field runner : Bytes} :
    readRunner field = some runner ↔ (runner.isEmpty || isValidClientId runner) = true ∧ field = orDash runner :=
  orDash_spelled (by decide) (by decide)

theorem readAttempt_spelled {field : Bytes} {attempt : UInt32} :
    readAttempt field = some attempt ↔ attempt ≠ 0 ∧ field = decimal attempt.toNat := by
  unfold readAttempt
  constructor
  · intro read
    obtain ⟨number, found, rest⟩ := Option.bind_eq_some_iff.mp read
    split at rest
    · cases rest
    · rename_i range
      obtain rfl := Option.some.inj rest
      have same : (UInt32.ofNat number.toNat).toNat = number.toNat := 
        UInt32.toNat_ofNat_of_lt' (Nat.lt_of_le_of_lt (Nat.not_lt.mp fun big => range (.inr big)) (by decide))
      refine ⟨?_, ?_⟩
      · intro nothing
        rw [nothing] at same
        exact range (.inl same.symm)
      · rw [same]
        exact parseNumber_spelled.mp found
  · rintro ⟨positive, rfl⟩
    have bound := attempt.toNat_lt
    have same : (UInt64.ofNat attempt.toNat).toNat = attempt.toNat := 
      UInt64.toNat_ofNat_of_lt' (Nat.lt_trans bound (by decide))
    have some_attempt : attempt.toNat ≠ 0 := fun nothing => positive (UInt32.toNat_inj.mp nothing)
    refine Option.bind_eq_some_iff.mpr ⟨.ofNat attempt.toNat, parseNumber_spelled.mpr (by rw [same]), ?_⟩
    have range : ¬ (attempt.toNat = 0 ∨ attempt.toNat > 2 ^ 32 - 1) := by omega
    simp only [same, if_neg range]
    simp

theorem parseExitCode_spelled {field : Bytes} {code : Int32} :
    parseExitCode field = some code ∧ plainInt field = true ↔ field = decimalInt code.toInt := by
  have low := Int32.le_toInt code
  have high := Int32.toInt_lt code
  constructor
  · rintro ⟨read, good⟩
    obtain ⟨n, number, rfl⟩ := Option.map_eq_some_iff.mp read
    obtain ⟨⟨above, below⟩, same⟩ := parseDecimalInt_plain.mp ⟨number, good⟩
    rw [Int32.toInt_ofInt_of_le (by omega) (by omega)]
    exact same
  · rintro rfl
    have number : parseDecimalInt (2 ^ 31) (2 ^ 31 - 1) (decimalInt code.toInt) = some code.toInt :=
      parseDecimalInt_decimalInt low (by omega)
    refine ⟨?_, plainInt_decimalInt _⟩
    rw [parseExitCode, number, Option.map_some, Int32.ofInt_toInt]

/-- Labels as a list holds them, in order and each once. -/
def Canonical (labels : List Bytes) : Prop := parseCiLabelList (formatCiLabelList labels) = some labels

theorem Canonical.sorted {labels : List Bytes} (canonical : Canonical labels) :
    sortedLabels labels = if labels.isEmpty then dash else formatCiLabelList labels := by
  unfold sortedLabels
  split
  · rfl
  · rw [canonical, Option.map_some, Option.getD_some]

theorem readLabels_spelled {field : Bytes} (filled : field ≠ []) {labels : List Bytes} :
    readLabels field = some labels ↔ Canonical labels ∧ field = sortedLabels labels := by
  unfold readLabels
  constructor
  · intro read
    obtain ⟨found, taken, rest⟩ := Option.bind_eq_some_iff.mp read
    by_cases blank : field = dash
    · rw [if_pos blank] at taken
      obtain rfl := Option.some.inj taken
      obtain rfl : [] = labels := by simpa [blank] using rest
      exact ⟨rfl, blank⟩
    · rw [if_neg blank] at taken
      have kept : formatCiLabelList found = field ∧ found = labels := by
        by_cases same : formatCiLabelList found = field
        · simpa [blank, same] using rest
        · simp [blank, same] at rest
      obtain ⟨same, rfl⟩ := kept
      have canonical : Canonical found := by rw [Canonical, same]; exact taken
      refine ⟨canonical, ?_⟩
      rw [canonical.sorted]
      cases found with
      | nil => exact absurd same.symm filled
      | cons label others => exact same.symm
  · rintro ⟨canonical, rfl⟩
    rw [canonical.sorted]
    cases labels with
    | nil => rfl
    | cons label others =>
      have named : formatCiLabelList (label :: others) ≠ dash := by
        intro blank
        have none : parseCiLabelList dash = none := by decide
        rw [Canonical, blank, none] at canonical
        cases canonical
      simp only [List.isEmpty_cons, Bool.false_eq_true, if_false, if_neg named]
      refine Option.bind_eq_some_iff.mpr ⟨_, canonical, ?_⟩
      simp

def isPrinted (byte : UInt8) : Bool := 0x21 ≤ byte && byte ≤ 0x7e

/-- A word of a line, of printable characters. -/
def Printed (word : Bytes) : Prop := word ≠ [] ∧ word.all isPrinted = true

theorem Printed.isWord {word : Bytes} (printed : Printed word) : IsWord word :=
  ⟨printed.1, not_mem_of_all printed.2 (by decide)⟩

/-- The bytes of digits, hex, ids, names and labels are printed, and lines may hold them. -/
theorem printed_table (n : Fin 256) :
    (isDigit (UInt8.ofFin n) = true → isPrinted (UInt8.ofFin n) = true)
    ∧ (isPrinted (hexDigit (UInt8.ofFin n >>> 4)) = true ∧ isPrinted (hexDigit (UInt8.ofFin n &&& 0x0f)) = true)
    ∧ (isNameCharacter (UInt8.ofFin n) = true → isPrinted (UInt8.ofFin n) = true)
    ∧ ((isDigit (UInt8.ofFin n) || ('a'.toUInt8 ≤ UInt8.ofFin n && UInt8.ofFin n ≤ 'f'.toUInt8)) = true →
      isPrinted (UInt8.ofFin n) = true)
    ∧ ((isAlnum (UInt8.ofFin n) || UInt8.ofFin n == '-'.toUInt8 || UInt8.ofFin n == '_'.toUInt8) = true →
      isPrinted (UInt8.ofFin n) = true)
    ∧ ((isLowerCase (UInt8.ofFin n) || isDigit (UInt8.ofFin n) || UInt8.ofFin n == '.'.toUInt8
      || UInt8.ofFin n == '_'.toUInt8 || UInt8.ofFin n == '-'.toUInt8) = true → isPrinted (UInt8.ofFin n) = true)
    ∧ (isPrinted (UInt8.ofFin n) = true → isLineByte (UInt8.ofFin n) = true)
    ∧ (isIdCharacter (UInt8.ofFin n) = true → isPrinted (UInt8.ofFin n) = true) := by
  revert n
  decide +kernel

theorem all_printed {p : UInt8 → Bool} (each : ∀ n : Fin 256, p (UInt8.ofFin n) = true → isPrinted (UInt8.ofFin n) = true)
    {word : Bytes} (h : word.all p = true) : word.all isPrinted = true :=
  List.all_eq_true.mpr fun byte member => each byte.toFin (List.all_eq_true.mp h byte member)

theorem printed_decimal (n : Nat) : Printed (decimal n) :=
  ⟨decimal_ne_nil n, all_printed (fun n => (printed_table n).1) (List.all_eq_true.mpr (decimal_digits n))⟩

theorem printed_decimalInt (n : Int) : Printed (decimalInt n) := by
  cases n with
  | ofNat m => exact printed_decimal m
  | negSucc m =>
    refine ⟨List.cons_ne_nil _ _, ?_⟩
    rw [decimalInt, List.all_cons, (printed_decimal (m + 1)).2]
    rfl

theorem hexEncode_printed (bytes : Bytes) : (hexEncode bytes).all isPrinted = true := by
  induction bytes with
  | nil => rfl
  | cons byte rest ih =>
    obtain ⟨high, low⟩ := (printed_table byte.toFin).2.1
    rw [hexEncode_cons, List.all_cons, List.all_cons, ih]
    exact Bool.and_eq_true_iff.mpr ⟨high, Bool.and_eq_true_iff.mpr ⟨low, rfl⟩⟩

theorem printed_hexEncode {bytes : Bytes} (filled : bytes ≠ []) : Printed (hexEncode bytes) := by
  refine ⟨?_, hexEncode_printed bytes⟩
  cases bytes with
  | nil => exact absurd rfl filled
  | cons byte rest => exact List.cons_ne_nil _ _

theorem printed_encodeText (text : Bytes) : Printed (encodeText text) := by
  cases text with
  | nil => exact ⟨by decide, by decide⟩
  | cons byte rest => exact printed_hexEncode (List.cons_ne_nil _ _)

theorem printed_flag (value : Bool) : Printed (flag value) := by
  cases value <;> exact ⟨by decide, by decide⟩

theorem printed_status (status : CiRunStatus) : Printed (ciRunStatusName status) := by
  cases status <;> exact ⟨by decide, by decide⟩

theorem printed_enabled (value : Bool) : Printed (ascii (if value then "enabled" else "disabled")) := by
  cases value <;> exact ⟨by decide, by decide⟩

theorem printed_complete (value : Bool) : Printed (ascii (if value then "end" else "more")) := by
  cases value <;> exact ⟨by decide, by decide⟩

theorem printed_id {id : Bytes} (valid : isValidCiId id = true) : Printed id := by
  refine ⟨isValidCiId_nonempty valid, ?_⟩
  simp only [isValidCiId, Bool.and_eq_true] at valid
  exact all_printed (fun n => (printed_table n).2.2.2.2.2.2.2) valid.2

theorem printed_artifact {name : Bytes} (valid : isValidCiArtifactName name = true) : Printed name := by
  simp only [isValidCiArtifactName, Bool.and_eq_true] at valid
  refine ⟨?_, all_printed (fun n => (printed_table n).2.2.1) valid.2⟩
  rintro rfl
  simp at valid

theorem lowercaseHex_printed {text : Bytes} (hex : isLowercaseHex text = true) : text.all isPrinted = true :=
  all_printed (fun n => (printed_table n).2.2.2.1) hex

theorem printed_object {id : Bytes} (valid : isValidObjectId id = true) : Printed id := by
  simp only [isValidObjectId, Bool.and_eq_true] at valid
  refine ⟨?_, lowercaseHex_printed valid.2⟩
  rintro rfl
  simp at valid

theorem printed_project {name : Bytes} (valid : isValidProjectName name = true) : Printed name := by
  refine ⟨?_, all_printed (fun n => (printed_table n).2.2.1) (isValidProjectName_characters valid)⟩
  rintro rfl
  revert valid
  decide

theorem printed_orDash {valid : Bytes → Bool} (named : ∀ name, valid name = true → name.all isPrinted = true)
    {name : Bytes} (good : (name.isEmpty || valid name) = true) : Printed (orDash name) := by
  cases name with
  | nil => exact ⟨by decide, by decide⟩
  | cons byte rest =>
    have fine : valid (byte :: rest) = true := by simpa using good
    exact ⟨List.cons_ne_nil _ _, named _ fine⟩

theorem printed_digest {digest : Bytes} (good : (digest.isEmpty || isValidSha256Hex digest) = true) :
    Printed (orDash digest) := by
  refine printed_orDash (fun name valid => ?_) good
  simp only [isValidSha256Hex, Bool.and_eq_true] at valid
  exact lowercaseHex_printed valid.2

theorem printed_runner {runner : Bytes} (good : (runner.isEmpty || isValidClientId runner) = true) :
    Printed (orDash runner) := by
  refine printed_orDash (fun name valid => ?_) good
  simp only [isValidClientId, Bool.and_eq_true] at valid
  exact all_printed (fun n => (printed_table n).2.2.2.2.1) valid.2

theorem joined_all {p : UInt8 → Bool} (separator : p comma = true) {items : List Bytes}
    (each : ∀ item ∈ items, item.all p = true) : (joined items).all p = true := by
  have kept : ∀ (rest : List Bytes) (text : Bytes), text.all p = true → (∀ item ∈ rest, item.all p = true) →
      (rest.foldl (fun text item => text ++ (if text.isEmpty then [] else [comma]) ++ item) text).all p = true := by
    intro rest
    induction rest with
    | nil => exact fun _ good _ => good
    | cons item rest ih =>
      intro text good others
      refine ih _ ?_ fun other member => others other (List.mem_cons_of_mem _ member)
      have first := others item List.mem_cons_self
      cases text with
      | nil => simpa using first
      | cons byte more => simp_all
  exact kept items [] rfl each

theorem printed_labels {labels : List Bytes} (canonical : Canonical labels) : Printed (sortedLabels labels) := by
  rw [canonical.sorted]
  cases labels with
  | nil => exact ⟨by decide, by decide⟩
  | cons label rest =>
    have valid := (parseCiLabelList_valid canonical).1
    refine ⟨joined_ne_nil (List.cons_ne_nil _ _) fun item member => (isValidCiLabel_avoids (valid item member)).2.2, ?_⟩
    refine joined_all (by decide) fun item member => ?_
    have good := valid item member
    simp only [isValidCiLabel, Bool.and_eq_true] at good
    exact all_printed (fun n => (printed_table n).2.2.2.2.2.1) good.2

end CkGit.Responses
