import CkGit.Base.Checks
import CkGit.Base.Grammar
import CkGit.Base.Spelling
import CkGit.Ci.JobCodec
import CkGit.Ci.RecordSize
import CkGit.Upload.Model

/-!
The command line of a runner: parseCiRunnerCommand and formatCiRunnerCommand of
src/common/ci_runner_protocol.cpp. What is accepted is what the formatter writes
for a valid command.
-/
namespace CkGit.Runner
open CkGit.Base CkGit.Base.Grammar CkGit.Ci
open CkGit.Upload (CiUploadKind)

def kMaximumCiClaimWaitSeconds : Nat := 120

def isToken (token : Bytes) : Bool := !token.isEmpty && token.length ≤ 256 && token.all isNameCharacter

/-- A decimal without a leading zero. -/
def canonicalNumber (token : Bytes) : Option UInt64 :=
  if token.isEmpty ∨ token.length > 20 ∨ (token.length > 1 ∧ token.head? = some zero) then none
  else (parseDecimal (2 ^ 64 - 1) token).map Nat.toUInt64

def isLeaseToken (token : Bytes) : Bool := token.length == 32 && isLowercaseHex token

def ciUploadKindFromName (name : Bytes) : Option CiUploadKind :=
  if name = ascii "artifact" then some .kArtifact
  else if name = ascii "asset" then some .kAsset
  else if name = ascii "pages" then some .kPages
  else none

inductive CiRunnerOp where
  | kHello
  | kClaim
  | kUploadPack
  | kStream
  | kHeartbeat
  | kPut
  | kFinish
  | kAbandon
  deriving DecidableEq

structure CiRunnerCommand where
  protocol_version : UInt32 := 1
  op : CiRunnerOp := .kHello
  version_hex : Bytes := []
  wait_seconds : UInt32 := 0
  job_id : Bytes := []
  token : Bytes := []
  project : Bytes := []
  kind : Bytes := []
  name : Bytes := []
  offset : UInt64 := 0
  total : UInt64 := 0
  sha256 : Bytes := []
  deriving DecidableEq

def tokenize (command : Bytes) : Except String (List Bytes) :=
  (command.splitOn space).foldlM (fun tokens token => do
    rejectIf (¬ isToken token) "command contains an empty or unsupported token"
    rejectIf (tokens.length + 1 > 10) "command has too many arguments"
    return tokens ++ [token]) []

def jobAndToken (job_id token : Bytes) : Bool := isValidCiId job_id && isLeaseToken token

/-- The operations on a job that take nothing more. -/
def jobOp (op : Bytes) : Option CiRunnerOp :=
  if op = ascii "stream" then some .kStream
  else if op = ascii "heartbeat" then some .kHeartbeat
  else if op = ascii "finish" then some .kFinish
  else if op = ascii "abandon" then some .kAbandon
  else none

/-- The operation with its arguments. -/
def operation (protocol_version : UInt32) (op : Bytes) (arguments : List Bytes) : Option CiRunnerCommand :=
  match arguments with
  | [argument] =>
    if op = ascii "hello" then
      if (hexDecode argument 128).isSome then some { protocol_version, op := .kHello, version_hex := argument } else none
    else if op = ascii "claim" then
      match canonicalNumber argument with
      | some wait =>
        if wait.toNat ≤ kMaximumCiClaimWaitSeconds then
          some { protocol_version, op := .kClaim, wait_seconds := wait.toUInt32 }
        else none
      | none => none
    else none
  | [job_id, token, project] =>
    if op = ascii "upload-pack" ∧ jobAndToken job_id token ∧ isValidProjectName project then
      some { protocol_version, op := .kUploadPack, job_id, token, project }
    else none
  | [job_id, token] =>
    match jobOp op with
    | some op => if jobAndToken job_id token then some { protocol_version, op, job_id, token } else none
    | none => none
  | [job_id, token, kind, name, offset, total, sha256] =>
    if op = ascii "put" then
      match canonicalNumber offset, canonicalNumber total with
      | some offset, some total =>
        if jobAndToken job_id token ∧ (ciUploadKindFromName kind).isSome ∧ isValidCiArtifactName name ∧ offset ≤ total
            ∧ isValidSha256Hex sha256 then
          some { protocol_version, op := .kPut, job_id, token, kind, name, offset, total, sha256 }
        else none
      | _, _ => none
    else none
  | _ => none

def parseCiRunnerCommand (command : Bytes) : Except String CiRunnerCommand := do
  rejectIf (command = [] ∨ command.length > 1024) "command is empty or exceeds 1024 bytes"
  let tokens ← tokenize command
  match tokens with
  | keyword :: version :: op :: arguments => do
    rejectIf (keyword ≠ ascii "ckgit-runner") "command is not a ckgit-runner operation"
    rejectIf (version ≠ ascii "1" ∧ version ≠ ascii "2") "unsupported ckgit-runner protocol version"
    match operation (if version = ascii "2" then 2 else 1) op arguments with
    | some parsed => return parsed
    | none => throw "command is not an allowed ckgit-runner operation"
  | _ => throw "command is not a ckgit-runner operation"

def formatCiRunnerCommand (command : CiRunnerCommand) : Except String Bytes := do
  rejectIf (command.protocol_version ≠ 1 ∧ command.protocol_version ≠ 2) "unsupported runner protocol version"
  let line := ascii "ckgit-runner " ++ decimal command.protocol_version.toNat ++ ascii " "
  let job := command.job_id ++ ascii " " ++ command.token
  return match command.op with
    | .kHello => line ++ ascii "hello " ++ command.version_hex
    | .kClaim => line ++ ascii "claim " ++ decimal command.wait_seconds.toNat
    | .kUploadPack => line ++ ascii "upload-pack " ++ job ++ ascii " " ++ command.project
    | .kStream => line ++ ascii "stream " ++ job
    | .kHeartbeat => line ++ ascii "heartbeat " ++ job
    | .kFinish => line ++ ascii "finish " ++ job
    | .kAbandon => line ++ ascii "abandon " ++ job
    | .kPut => line ++ ascii "put " ++ job ++ ascii " " ++ command.kind ++ ascii " " ++ command.name ++ ascii " "
      ++ decimal command.offset.toNat ++ ascii " " ++ decimal command.total.toNat ++ ascii " " ++ command.sha256

/-- The fields of a job operation. -/
structure ValidJob (job_id token : Bytes) : Prop where
  job : isValidCiId job_id = true
  token : isLeaseToken token = true

/-- A command whose fields are valid for its operation and its protocol version; the fields of
other operations keep their defaults. -/
inductive ValidCommand : CiRunnerCommand → Prop where
  | hello {protocol_version version_hex} (version : protocol_version = 1 ∨ protocol_version = 2) (filled : version_hex ≠ [])
      (hex : (hexDecode version_hex 128).isSome) : ValidCommand { protocol_version, op := .kHello, version_hex }
  | claim {protocol_version wait_seconds} (version : protocol_version = 1 ∨ protocol_version = 2)
      (short : wait_seconds.toNat ≤ kMaximumCiClaimWaitSeconds) :
      ValidCommand { protocol_version, op := .kClaim, wait_seconds }
  | uploadPack {protocol_version job_id token project} (version : protocol_version = 1 ∨ protocol_version = 2)
      (job : ValidJob job_id token) (named : isValidProjectName project = true) :
      ValidCommand { protocol_version, op := .kUploadPack, job_id, token, project }
  | job {protocol_version op job_id token} (version : protocol_version = 1 ∨ protocol_version = 2)
      (known : op ∈ [CiRunnerOp.kStream, .kHeartbeat, .kFinish, .kAbandon]) (job : ValidJob job_id token) :
      ValidCommand { protocol_version, op, job_id, token }
  | put {protocol_version job_id token kind name offset total sha256} (version : protocol_version = 1 ∨ protocol_version = 2)
      (job : ValidJob job_id token) (known : (ciUploadKindFromName kind).isSome) (named : isValidCiArtifactName name = true)
      (within : offset ≤ total) (digest : isValidSha256Hex sha256 = true) :
      ValidCommand { protocol_version, op := .kPut, job_id, token, kind, name, offset, total, sha256 }

/-- The bytes of digits, hex and ids are those of tokens. -/
theorem token_table (n : Fin 256) :
    (isDigit (UInt8.ofFin n) = true → isNameCharacter (UInt8.ofFin n) = true)
    ∧ ((isDigit (UInt8.ofFin n) || ('a'.toUInt8 ≤ UInt8.ofFin n && UInt8.ofFin n ≤ 'f'.toUInt8)) = true →
      isNameCharacter (UInt8.ofFin n) = true)
    ∧ (isIdCharacter (UInt8.ofFin n) = true → isNameCharacter (UInt8.ofFin n) = true)
    ∧ ((hexNibble (UInt8.ofFin n)).isSome = true → isNameCharacter (UInt8.ofFin n) = true) := by
  revert n
  decide +kernel

section
variable {text piece job_id token project kind name digest op : Bytes} {tokens held pieces arguments : List Bytes}
  {command : CiRunnerCommand} {protocol_version : UInt32} {number : UInt64}

theorem all_name {p : UInt8 → Bool} (each : ∀ n : Fin 256, p (UInt8.ofFin n) = true → isNameCharacter (UInt8.ofFin n) = true)
    (h : piece.all p = true) : piece.all isNameCharacter = true :=
  List.all_eq_true.mpr fun byte member => each byte.toFin (List.all_eq_true.mp h byte member)

theorem isToken_iff : isToken token = true ↔ token ≠ [] ∧ token.length ≤ 256 ∧ token.all isNameCharacter = true := by
  simp [isToken, and_assoc]

theorem isToken_word (good : isToken token = true) : space ∉ token :=
  not_mem_of_all (isToken_iff.mp good).2.2 (by decide)

theorem isToken_decimal (n : UInt64) : isToken (decimal n.toNat) = true := by
  have short := decimal_length_le (n := n.toNat) (k := 20) (by decide) (n.toNat_lt.trans (by decide))
  refine isToken_iff.mpr ⟨decimal_ne_nil _, by omega, ?_⟩
  exact all_name (fun n => (token_table n).1) (List.all_eq_true.mpr (decimal_digits _))

theorem isToken_id (valid : isValidCiId job_id = true) : isToken job_id = true := by
  simp only [isValidCiId, Bool.and_eq_true, decide_eq_true_eq] at valid
  refine isToken_iff.mpr ⟨by simpa using valid.1.1, valid.1.2.trans (by decide), ?_⟩
  exact all_name (fun n => (token_table n).2.2.1) valid.2

theorem isToken_hex {size : Nat} (length : piece.length = size) (positive : 0 < size) (small : size ≤ 256)
    (hex : isLowercaseHex piece = true) : isToken piece = true := by
  refine isToken_iff.mpr ⟨?_, by omega, all_name (fun n => (token_table n).2.1) hex⟩
  rintro rfl
  simp at length
  omega

theorem isToken_project (valid : isValidProjectName project = true) : isToken project = true := by
  refine isToken_iff.mpr ⟨?_, (isValidProjectName_length valid).trans (by decide), isValidProjectName_characters valid⟩
  rintro rfl
  revert valid
  decide

theorem isValidCiArtifactName_iff : isValidCiArtifactName name = true
    ↔ name ≠ [] ∧ name.length ≤ 64 ∧ name.all isNameCharacter = true := by
  simp only [isValidCiArtifactName, Bool.and_eq_true, decide_eq_true_eq, and_assoc]
  simp [kMaximumCiArtifactNameBytes]

theorem isToken_artifact (valid : isValidCiArtifactName name = true) : isToken name = true := by
  obtain ⟨filled, short, characters⟩ := isValidCiArtifactName_iff.mp valid
  exact isToken_iff.mpr ⟨filled, short.trans (by decide), characters⟩

theorem isLeaseToken_iff : isLeaseToken token = true ↔ token.length = 32 ∧ isLowercaseHex token = true := by
  simp [isLeaseToken]

theorem isValidSha256Hex_iff : isValidSha256Hex digest = true ↔ digest.length = 64 ∧ isLowercaseHex digest = true := by
  simp [isValidSha256Hex]

theorem isToken_kind (known : (ciUploadKindFromName kind).isSome) : isToken kind = true ∧ kind.length ≤ 8 := by
  unfold ciUploadKindFromName at known
  split at known
  · rename_i same
    subst same
    decide
  · split at known
    · rename_i same
      subst same
      decide
    · split at known
      · rename_i same
        subst same
        decide
      · cases known

theorem isToken_hexText (filled : piece ≠ []) (hex : (hexDecode piece 128).isSome) :
    isToken piece = true ∧ piece.length ≤ 256 := by
  obtain ⟨bytes, decoded⟩ := Option.isSome_iff_exists.mp hex
  obtain ⟨short, rfl⟩ := hexDecode_spelled.mp decoded
  have length : (hexEncode bytes).length ≤ 256 := by
    rw [hexEncode_length]
    omega
  refine ⟨isToken_iff.mpr ⟨filled, length, ?_⟩, length⟩
  refine List.all_eq_true.mpr fun byte member => ?_
  rw [hexEncode, List.mem_flatMap] at member
  obtain ⟨source, _, digit⟩ := member
  obtain ⟨high, low, _⟩ := hex_byte source
  rcases List.mem_cons.mp digit with rfl | digit
  · exact (token_table (hexDigit (source >>> 4)).toFin).2.2.2 (Option.isSome_iff_exists.mpr ⟨_, high⟩)
  · rw [List.mem_singleton.mp digit]
    exact (token_table (hexDigit (source &&& 0x0f)).toFin).2.2.2 (Option.isSome_iff_exists.mpr ⟨_, low⟩)

theorem canonicalNumber_iff : canonicalNumber token = some number ↔ token = decimal number.toNat := by
  have bound : number.toNat ≤ 2 ^ 64 - 1 := Nat.le_sub_one_of_lt number.toNat_lt
  have spelled : ∀ {n : Nat}, parseDecimal (2 ^ 64 - 1) token = some n ∧ plain token = true
      ↔ n ≤ 2 ^ 64 - 1 ∧ token = decimal n := parseDecimal_plain
  have plain_iff : plain token = true ↔ ¬ (token.length > 1 ∧ token.head? = some zero) := by
    simp [plain, imp_iff_not_or]
  unfold canonicalNumber
  constructor
  · intro read
    split at read
    · cases read
    · rename_i shape
      rw [not_or, not_or] at shape
      obtain ⟨n, parsed, rfl⟩ := Option.map_eq_some_iff.mp read
      obtain ⟨small, same⟩ := spelled.mp ⟨parsed, plain_iff.mpr shape.2.2⟩
      rwa [UInt64.toNat_ofNat_of_lt' (Nat.lt_of_le_of_lt small (by decide))]
  · rintro rfl
    have short := decimal_length_le (n := number.toNat) (k := 20) (by decide) (number.toNat_lt.trans (by decide))
    rw [if_neg, parseDecimal_decimal bound]
    · simp
    · rw [not_or, not_or]
      exact ⟨by simpa using decimal_ne_nil number.toNat, Nat.not_lt.mpr short, plain_iff.mp (plain_decimal _)⟩

def opName (op : CiRunnerOp) : Bytes :=
  match op with
  | .kHello => ascii "hello"
  | .kClaim => ascii "claim"
  | .kUploadPack => ascii "upload-pack"
  | .kStream => ascii "stream"
  | .kHeartbeat => ascii "heartbeat"
  | .kPut => ascii "put"
  | .kFinish => ascii "finish"
  | .kAbandon => ascii "abandon"

def argumentsOf (command : CiRunnerCommand) : List Bytes :=
  match command.op with
  | .kHello => [command.version_hex]
  | .kClaim => [decimal command.wait_seconds.toNat]
  | .kUploadPack => [command.job_id, command.token, command.project]
  | .kStream | .kHeartbeat | .kFinish | .kAbandon => [command.job_id, command.token]
  | .kPut => [command.job_id, command.token, command.kind, command.name, decimal command.offset.toNat,
    decimal command.total.toNat, command.sha256]

def spelled (command : CiRunnerCommand) : List Bytes :=
  ascii "ckgit-runner" :: decimal command.protocol_version.toNat :: opName command.op :: argumentsOf command

theorem formatCiRunnerCommand_ok (version : command.protocol_version = 1 ∨ command.protocol_version = 2) :
    formatCiRunnerCommand command = .ok (unwords (spelled command)) := by
  have known : ¬ (command.protocol_version ≠ 1 ∧ command.protocol_version ≠ 2) := fun both => version.elim both.1 both.2
  unfold formatCiRunnerCommand
  rw [bind_ok]
  refine ⟨(), rejectIf_ok.mpr known, ?_⟩
  rw [pure_ok]
  unfold spelled argumentsOf opName
  cases command.op <;> simp [unwords, ascii, space]

theorem tokenize_from : pieces.foldlM (fun tokens token => do
      rejectIf (¬ isToken token) "command contains an empty or unsupported token"
      rejectIf (tokens.length + 1 > 10) "command has too many arguments"
      return tokens ++ [token]) held = (.ok tokens : Except String (List Bytes))
    ↔ tokens = held ++ pieces ∧ (∀ token ∈ pieces, isToken token = true)
      ∧ (pieces = [] ∨ held.length + pieces.length ≤ 10) := by
  induction pieces generalizing held with
  | nil =>
    rw [List.foldlM_nil, pure_ok, List.append_nil]
    exact ⟨fun same => ⟨same.symm, nofun, .inl rfl⟩, fun all => all.1.symm⟩
  | cons token rest ih =>
    simp only [List.foldlM_cons, bind_ok, rejectIf_ok, pure_ok, not_not, List.append_cons held token rest]
    constructor
    · rintro ⟨next, ⟨_, good, _, room, rfl⟩, later⟩
      obtain ⟨rfl, others, fits⟩ := ih.mp later
      refine ⟨rfl, fun other member => ?_, .inr ?_⟩
      · rcases List.mem_cons.mp member with rfl | member
        · exact good
        · exact others other member
      · rcases fits with rfl | fits
        · simpa using room
        · simp only [List.length_append, List.length_cons, List.length_nil] at fits ⊢
          omega
    · rintro ⟨rfl, good, fits⟩
      have count : held.length + (rest.length + 1) ≤ 10 := by simpa using fits
      refine ⟨_, ⟨(), good token List.mem_cons_self, (), by omega, rfl⟩, ih.mpr ⟨rfl, fun other member =>
        good other (List.mem_cons_of_mem _ member), .inr ?_⟩⟩
      simp only [List.length_append, List.length_cons, List.length_nil]
      omega

theorem tokenize_iff : tokenize text = .ok tokens
    ↔ tokens = text.splitOn space ∧ (∀ token ∈ tokens, isToken token = true) ∧ tokens.length ≤ 10 := by
  unfold tokenize
  rw [tokenize_from]
  have some_piece := List.splitOn_ne_nil space text
  constructor
  · rintro ⟨rfl, good, fits⟩
    exact ⟨rfl, good, by simpa [some_piece] using fits⟩
  · rintro ⟨rfl, good, fits⟩
    exact ⟨rfl, good, .inr (by simpa using fits)⟩

theorem jobAndToken_iff : jobAndToken job_id token = true ↔ ValidJob job_id token := by
  rw [jobAndToken, Bool.and_eq_true]
  exact ⟨fun both => ⟨both.1, both.2⟩, fun valid => ⟨valid.job, valid.token⟩⟩

theorem jobOp_some {found : CiRunnerOp} (read : jobOp op = some found) :
    op = opName found ∧ found ∈ [CiRunnerOp.kStream, .kHeartbeat, .kFinish, .kAbandon] := by
  unfold jobOp at read
  split at read
  · cases read
    exact ⟨‹_›, by decide⟩
  · split at read
    · cases read
      exact ⟨‹_›, by decide⟩
    · split at read
      · cases read
        exact ⟨‹_›, by decide⟩
      · split at read
        · cases read
          exact ⟨‹_›, by decide⟩
        · cases read

/-- An operation that is read is valid, and its words are the ones it was read from. -/
theorem operation_some (version : protocol_version = 1 ∨ protocol_version = 2)
    (good : ∀ token ∈ arguments, isToken token = true) (read : operation protocol_version op arguments = some command) :
    ValidCommand command ∧ command.protocol_version = protocol_version ∧ op = opName command.op
      ∧ arguments = argumentsOf command := by
  unfold operation at read
  split at read
  · rename_i argument
    split at read
    · split at read
      · rename_i same hex
        cases read
        exact ⟨.hello version (isToken_iff.mp (good argument List.mem_cons_self)).1 hex, rfl, same, rfl⟩
      · cases read
    · split at read
      · rename_i same
        split at read
        · rename_i wait number
          split at read
          · rename_i short
            cases read
            have small : wait.toNat < 2 ^ 32 := Nat.lt_of_le_of_lt short (by decide)
            have exact_wait : wait.toUInt32.toNat = wait.toNat := by
              rw [UInt64.toNat_toUInt32]
              exact Nat.mod_eq_of_lt small
            refine ⟨.claim version (exact_wait.symm ▸ short), rfl, same, ?_⟩
            simp [argumentsOf, exact_wait, canonicalNumber_iff.mp number]
          · cases read
        · cases read
      · cases read
  · split at read
    · rename_i accepted
      obtain ⟨same, job, named⟩ := accepted
      cases read
      exact ⟨.uploadPack version (jobAndToken_iff.mp job) named, rfl, same, rfl⟩
    · cases read
  · split at read
    · rename_i found known
      split at read
      · rename_i job
        cases read
        obtain ⟨same, listed⟩ := jobOp_some known
        refine ⟨.job version listed (jobAndToken_iff.mp job), rfl, same, ?_⟩
        simp only [List.mem_cons, List.not_mem_nil, or_false] at listed
        rcases listed with rfl | rfl | rfl | rfl <;> rfl
      · cases read
    · cases read
  · split at read
    · rename_i same
      split at read
      · rename_i offset total first second
        split at read
        · rename_i accepted
          obtain ⟨job, known, named, within, digest⟩ := accepted
          cases read
          refine ⟨.put version (jobAndToken_iff.mp job) known named within digest, rfl, same, ?_⟩
          simp [argumentsOf, canonicalNumber_iff.mp first, canonicalNumber_iff.mp second]
        · cases read
      · cases read
    · cases read
  · cases read

theorem ValidCommand.operation (valid : ValidCommand command) :
    operation command.protocol_version (opName command.op) (argumentsOf command) = some command := by
  cases valid with
  | hello _ _ hex =>
    show (if (hexDecode _ 128).isSome = true then _ else none) = _
    rw [if_pos hex]
  | @claim _ wait_seconds _ short =>
    have number : canonicalNumber (decimal wait_seconds.toNat) = some wait_seconds.toUInt64 :=
      canonicalNumber_iff.mpr (by rw [UInt32.toNat_toUInt64])
    show (match canonicalNumber (decimal wait_seconds.toNat) with
      | some wait => if wait.toNat ≤ kMaximumCiClaimWaitSeconds then _ else none
      | none => none) = _
    rw [number]
    simp only [UInt32.toNat_toUInt64, if_pos short]
    simp
  | uploadPack _ job named =>
    show (if _ ∧ _ ∧ _ then _ else none) = _
    rw [if_pos ⟨rfl, jobAndToken_iff.mpr job, named⟩]
  | job _ listed job =>
    have accepted := jobAndToken_iff.mpr job
    simp only [List.mem_cons, List.not_mem_nil, or_false] at listed
    rcases listed with rfl | rfl | rfl | rfl <;> exact if_pos accepted
  | @put _ _ _ _ _ offset total _ _ job known named within digest =>
    show (match canonicalNumber (decimal offset.toNat), canonicalNumber (decimal total.toNat) with
      | some offset, some total => if _ ∧ _ ∧ _ ∧ offset ≤ total ∧ _ then _ else none
      | _, _ => none) = _
    rw [canonicalNumber_iff.mpr rfl, canonicalNumber_iff.mpr rfl]
    exact if_pos ⟨jobAndToken_iff.mpr job, known, named, within, digest⟩

theorem ValidCommand.version (valid : ValidCommand command) :
    command.protocol_version = 1 ∨ command.protocol_version = 2 := by
  cases valid <;> assumption

theorem ValidJob.areTokens (valid : ValidJob job_id token) :
    isToken job_id = true ∧ isToken token = true ∧ job_id.length ≤ 64 ∧ token.length = 32 := by
  obtain ⟨length, hex⟩ := isLeaseToken_iff.mp valid.token
  exact ⟨isToken_id valid.job, isToken_hex length (by decide) (by decide) hex, isValidCiId_length valid.job, length⟩

theorem ValidCommand.argumentTokens (valid : ValidCommand command) : ∃ arguments, argumentsOf command = arguments
    ∧ (∀ token ∈ arguments, isToken token = true) ∧ arguments.length ≤ 7 ∧ (arguments.map List.length).sum ≤ 900 := by
  cases valid with
  | @hello _ version_hex _ filled hex =>
    obtain ⟨good, short⟩ := isToken_hexText filled hex
    refine ⟨[version_hex], rfl, by simpa using good, by simp, ?_⟩
    simp only [List.map_cons, List.map_nil, List.sum_cons, List.sum_nil]
    omega
  | @claim _ wait_seconds _ _ =>
    have good := isToken_decimal wait_seconds.toUInt64
    rw [UInt32.toNat_toUInt64] at good
    have short := (isToken_iff.mp good).2.1
    refine ⟨[decimal wait_seconds.toNat], rfl, by simpa using good, by simp, ?_⟩
    simp only [List.map_cons, List.map_nil, List.sum_cons, List.sum_nil]
    omega
  | @uploadPack _ job_id token project _ job named =>
    obtain ⟨first, second, id_length, token_length⟩ := job.areTokens
    have short := isValidProjectName_length named
    refine ⟨[job_id, token, project], rfl, by simpa using ⟨first, second, isToken_project named⟩, by simp, ?_⟩
    simp only [List.map_cons, List.map_nil, List.sum_cons, List.sum_nil]
    omega
  | @job _ op job_id token _ listed job =>
    obtain ⟨first, second, id_length, token_length⟩ := job.areTokens
    refine ⟨[job_id, token], ?_, by simpa using ⟨first, second⟩, by simp, ?_⟩
    · simp only [List.mem_cons, List.not_mem_nil, or_false] at listed
      rcases listed with rfl | rfl | rfl | rfl <;> rfl
    · simp only [List.map_cons, List.map_nil, List.sum_cons, List.sum_nil]
      omega
  | @put _ job_id token kind name offset total sha256 _ job known named within digest =>
    obtain ⟨first, second, id_length, token_length⟩ := job.areTokens
    obtain ⟨kind_token, kind_length⟩ := isToken_kind known
    obtain ⟨_, name_length, _⟩ := isValidCiArtifactName_iff.mp named
    obtain ⟨digest_length, hex⟩ := isValidSha256Hex_iff.mp digest
    have offset_length := (isToken_iff.mp (isToken_decimal offset)).2.1
    have total_length := (isToken_iff.mp (isToken_decimal total)).2.1
    refine ⟨[job_id, token, kind, name, decimal offset.toNat, decimal total.toNat, sha256], rfl, ?_, by simp, ?_⟩
    · simpa using ⟨first, second, kind_token, isToken_artifact named, isToken_decimal offset, isToken_decimal total,
        isToken_hex digest_length (by decide) (by decide) hex⟩
    · simp only [List.map_cons, List.map_nil, List.sum_cons, List.sum_nil]
      omega

theorem unwords_length (words : List Bytes) :
    (unwords words).length ≤ (words.map List.length).sum + words.length := by
  induction words with
  | nil => exact Nat.zero_le _
  | cons word rest ih =>
    cases rest with
    | nil => simp [unwords]
    | cons next others =>
      rw [unwords] at ih ⊢
      simp only [List.intercalate_cons_cons, List.length_append, List.map_cons, List.sum_cons, List.length_cons,
        List.length_nil] at ih ⊢
      omega

/-- The words of a valid command are tokens, and its line fits. -/
theorem ValidCommand.fits (valid : ValidCommand command) :
    (∀ token ∈ spelled command, isToken token = true) ∧ (spelled command).length ≤ 10
      ∧ (unwords (spelled command)).length ≤ 1024 := by
  have digit : isToken (decimal command.protocol_version.toNat) = true
      ∧ (decimal command.protocol_version.toNat).length = 1 := by
    rcases valid.version with one | two
    · rw [one]
      decide
    · rw [two]
      decide
  have named : isToken (opName command.op) = true ∧ (opName command.op).length ≤ 11 := by
    cases command.op <;> decide
  have keyword : isToken (ascii "ckgit-runner") = true ∧ (ascii "ckgit-runner").length = 12 := by decide
  obtain ⟨arguments, same, good, count, size⟩ := valid.argumentTokens
  refine ⟨?_, ?_, (unwords_length _).trans ?_⟩
  · rw [spelled, same]
    simpa [keyword.1, digit.1, named.1] using good
  · rw [spelled, same]
    simp only [List.length_cons]
    omega
  · rw [spelled, same]
    simp only [List.map_cons, List.sum_cons, List.length_cons, keyword.2, digit.2]
    omega

/-- A line is accepted as a command exactly when the command is valid and the line is how it is
written. -/
theorem parseCiRunnerCommand_iff : parseCiRunnerCommand text = .ok command
    ↔ ValidCommand command ∧ formatCiRunnerCommand command = .ok text := by
  unfold parseCiRunnerCommand
  constructor
  · intro read
    simp only [bind_ok, rejectIf_ok] at read
    obtain ⟨_, _, tokens, split_tokens, read⟩ := read
    obtain ⟨pieces, good, count⟩ := tokenize_iff.mp split_tokens
    split at read
    · rename_i keyword version op arguments
      simp only [bind_ok, rejectIf_ok, not_not] at read
      obtain ⟨_, rfl, _, known, read⟩ := read
      split at read
      · rename_i parsed found
        obtain rfl := pure_ok.mp read
        have either : version = ascii "1" ∨ version = ascii "2" := by
          by_contra neither
          exact known ⟨fun one => neither (.inl one), fun two => neither (.inr two)⟩
        have protocol : ((if version = ascii "2" then 2 else 1 : UInt32) = 1 ∨ (if version = ascii "2" then 2 else 1 : UInt32) = 2)
            ∧ decimal (if version = ascii "2" then 2 else 1 : UInt32).toNat = version := by
          rcases either with rfl | rfl
          · decide
          · decide
        obtain ⟨valid, same, rfl, rfl⟩ := operation_some protocol.1
          (fun token member => good token (by simp [member])) found
        refine ⟨valid, ?_⟩
        rw [formatCiRunnerCommand_ok valid.version, spelled, same, protocol.2, pieces, unwords, List.intercalate_splitOn]
      · cases read
    · cases read
  · rintro ⟨valid, written⟩
    obtain ⟨good, count, size⟩ := valid.fits
    rw [formatCiRunnerCommand_ok valid.version] at written
    obtain rfl := Except.ok.inj written
    have pieces : (unwords (spelled command)).splitOn space = spelled command :=
      List.splitOn_intercalate space (fun token member => isToken_word (good token member)) (List.cons_ne_nil _ _)
    have filled : unwords (spelled command) ≠ [] := by
      intro nothing
      rw [nothing, List.splitOn_nil] at pieces
      cases pieces
    simp only [bind_ok, rejectIf_ok]
    refine ⟨(), not_or.mpr ⟨filled, Nat.not_lt.mpr size⟩, _, tokenize_iff.mpr ⟨pieces.symm, good, count⟩, ?_⟩
    have version : (decimal command.protocol_version.toNat = ascii "1" ∨ decimal command.protocol_version.toNat = ascii "2")
        ∧ (if decimal command.protocol_version.toNat = ascii "2" then 2 else 1) = command.protocol_version := by
      rcases valid.version with one | two
      · rw [one]
        decide
      · rw [two]
        decide
    unfold spelled
    simp only [bind_ok, rejectIf_ok, not_not]
    refine ⟨(), trivial, (), fun neither => version.1.elim neither.1 neither.2, ?_⟩
    rw [version.2, valid.operation]
    rfl

end

end CkGit.Runner
