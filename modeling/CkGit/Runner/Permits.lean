import CkGit.Responses.Lines
import CkGit.Runner.Commands
import CkGit.Workflow.Recordable

/-!
The dependency start permit: parseCiDependencyStartPermit and
formatCiDependencyStartPermit of src/common/ci_runner_protocol.cpp. It has one
spelling, as a command has.
-/
namespace CkGit.Runner
open CkGit.Base CkGit.Ci
open CkGit.Responses (frame_spelled)
open CkGit.Workflow (isValidCiLabel_length)

def kMaximumCiDependencyPermitLifetimeSeconds : Nat := 120

structure CiDependencyStartPermit where
  project : Bytes
  commit : Bytes
  lock_sha256 : Bytes
  inventory_sha256 : Bytes
  platform : Bytes
  architecture : Bytes
  abi : Bytes
  job_id : Bytes
  lease_sha256 : Bytes
  nonce : Bytes
  attempt : UInt32
  issued_epoch : UInt64
  expires_epoch : UInt64
  deriving DecidableEq

/-- The lines of a text that is not empty. -/
def splitLines (text : Bytes) : Except String (List Bytes) :=
  match frame text with
  | some lines => .ok lines
  | none => .error "an unterminated line"

def field (line : Bytes) (key : String) : Except String Bytes :=
  match expectField (ascii key) line with
  | some value => .ok value
  | none => .error ("expected field " ++ key)

def isPermitPlatform (platform : Bytes) : Bool := [ascii "windows", ascii "macos", ascii "linux"].contains platform

def isPermitArchitecture (architecture : Bytes) : Bool := [ascii "x64", ascii "arm64"].contains architecture

/-- The permit of fields that were read. -/
def permitOf (project commit lock_sha256 inventory_sha256 platform architecture abi job_id lease_sha256 nonce : Bytes)
    (attempt issued expires : Option UInt64) : Except String CiDependencyStartPermit :=
  match attempt, issued, expires with
  | some attempt, some issued, some expires => do
    rejectIf (¬ (isValidProjectName project ∧ isValidObjectId commit ∧ isValidSha256Hex lock_sha256
        ∧ isValidSha256Hex inventory_sha256 ∧ isValidSha256Hex lease_sha256 ∧ isLeaseToken nonce
        ∧ isPermitPlatform platform ∧ isPermitArchitecture architecture ∧ isValidCiLabel abi ∧ isValidCiId job_id
        ∧ attempt ≠ 0 ∧ attempt.toNat ≤ 1000 ∧ issued ≠ 0 ∧ issued < expires
        ∧ (expires - issued).toNat ≤ kMaximumCiDependencyPermitLifetimeSeconds))
      "invalid dependency permit field or lifetime"
    return { project, commit, lock_sha256, inventory_sha256, platform, architecture, abi, job_id, lease_sha256, nonce
             attempt := attempt.toUInt32, issued_epoch := issued, expires_epoch := expires }
  | _, _, _ => throw "invalid dependency permit field or lifetime"

def parseCiDependencyStartPermit (payload : Bytes) : Except String CiDependencyStartPermit := do
  rejectIf (payload = [] ∨ payload.length > 4096) "invalid dependency permit size"
  let items ← splitLines payload
  match items with
  | [version, project, commit, lock_sha256, inventory_sha256, platform, architecture, abi, job_id, lease_sha256, nonce,
      attempt, issued, expires] => do
    rejectIf (version ≠ ascii "dependency-permit-v1") "invalid dependency permit version or shape"
    let project ← field project "project="
    let commit ← field commit "commit="
    let lock_sha256 ← field lock_sha256 "lock_sha256="
    let inventory_sha256 ← field inventory_sha256 "inventory_sha256="
    let platform ← field platform "platform="
    let architecture ← field architecture "architecture="
    let abi ← field abi "abi="
    let job_id ← field job_id "job_id="
    let lease_sha256 ← field lease_sha256 "lease_sha256="
    let nonce ← field nonce "nonce="
    let attempt ← field attempt "attempt="
    let issued ← field issued "issued="
    let expires ← field expires "expires="
    permitOf project commit lock_sha256 inventory_sha256 platform architecture abi job_id lease_sha256 nonce
      (canonicalNumber attempt) (canonicalNumber issued) (canonicalNumber expires)
  | _ => throw "invalid dependency permit version or shape"

def permitText (p : CiDependencyStartPermit) : Bytes :=
  ascii "dependency-permit-v1\nproject=" ++ p.project ++ ascii "\ncommit=" ++ p.commit
    ++ ascii "\nlock_sha256=" ++ p.lock_sha256 ++ ascii "\ninventory_sha256=" ++ p.inventory_sha256
    ++ ascii "\nplatform=" ++ p.platform ++ ascii "\narchitecture=" ++ p.architecture ++ ascii "\nabi=" ++ p.abi
    ++ ascii "\njob_id=" ++ p.job_id ++ ascii "\nlease_sha256=" ++ p.lease_sha256 ++ ascii "\nnonce=" ++ p.nonce
    ++ ascii "\nattempt=" ++ decimal p.attempt.toNat ++ ascii "\nissued=" ++ decimal p.issued_epoch.toNat
    ++ ascii "\nexpires=" ++ decimal p.expires_epoch.toNat ++ ascii "\n"

def formatCiDependencyStartPermit (p : CiDependencyStartPermit) : Except String Bytes := do
  let payload := permitText p
  let _ ← parseCiDependencyStartPermit payload
  return payload

structure ValidPermit (p : CiDependencyStartPermit) : Prop where
  project : isValidProjectName p.project = true
  commit : isValidObjectId p.commit = true
  lock : isValidSha256Hex p.lock_sha256 = true
  inventory : isValidSha256Hex p.inventory_sha256 = true
  lease : isValidSha256Hex p.lease_sha256 = true
  nonce : isLeaseToken p.nonce = true
  platform : isPermitPlatform p.platform = true
  architecture : isPermitArchitecture p.architecture = true
  abi : isValidCiLabel p.abi = true
  job : isValidCiId p.job_id = true
  attempt : p.attempt ≠ 0 ∧ p.attempt.toNat ≤ 1000
  issued : p.issued_epoch ≠ 0
  lifetime : p.issued_epoch < p.expires_epoch
    ∧ (p.expires_epoch - p.issued_epoch).toNat ≤ kMaximumCiDependencyPermitLifetimeSeconds

def permitLines (p : CiDependencyStartPermit) : List Bytes :=
  [ascii "dependency-permit-v1", ascii "project=" ++ p.project, ascii "commit=" ++ p.commit,
    ascii "lock_sha256=" ++ p.lock_sha256, ascii "inventory_sha256=" ++ p.inventory_sha256,
    ascii "platform=" ++ p.platform, ascii "architecture=" ++ p.architecture, ascii "abi=" ++ p.abi,
    ascii "job_id=" ++ p.job_id, ascii "lease_sha256=" ++ p.lease_sha256, ascii "nonce=" ++ p.nonce,
    ascii "attempt=" ++ decimal p.attempt.toNat, ascii "issued=" ++ decimal p.issued_epoch.toNat,
    ascii "expires=" ++ decimal p.expires_epoch.toNat]

section
variable {payload line value text : Bytes} {lines : List Bytes} {p : CiDependencyStartPermit} {key : String}

/-- Each separator ends a line and begins the next. -/
theorem separator_table :
    ascii "dependency-permit-v1\nproject=" = ascii "dependency-permit-v1" ++ newline :: ascii "project="
      ∧ ascii "\ncommit=" = newline :: ascii "commit=" ∧ ascii "\nlock_sha256=" = newline :: ascii "lock_sha256="
      ∧ ascii "\ninventory_sha256=" = newline :: ascii "inventory_sha256="
      ∧ ascii "\nplatform=" = newline :: ascii "platform=" ∧ ascii "\narchitecture=" = newline :: ascii "architecture="
      ∧ ascii "\nabi=" = newline :: ascii "abi=" ∧ ascii "\njob_id=" = newline :: ascii "job_id="
      ∧ ascii "\nlease_sha256=" = newline :: ascii "lease_sha256=" ∧ ascii "\nnonce=" = newline :: ascii "nonce="
      ∧ ascii "\nattempt=" = newline :: ascii "attempt=" ∧ ascii "\nissued=" = newline :: ascii "issued="
      ∧ ascii "\nexpires=" = newline :: ascii "expires=" ∧ ascii "\n" = [newline] := by
  decide

theorem permitText_framed (p : CiDependencyStartPermit) : permitText p = framed (permitLines p) := by
  unfold permitText permitLines
  obtain ⟨h₁, h₂, h₃, h₄, h₅, h₆, h₇, h₈, h₉, h₁₀, h₁₁, h₁₂, h₁₃, h₁₄⟩ := separator_table
  simp only [h₁, h₂, h₃, h₄, h₅, h₆, h₇, h₈, h₉, h₁₀, h₁₁, h₁₂, h₁₃, h₁₄, framed_cons, framed_nil, List.append_assoc,
    List.cons_append]

theorem field_ok : field line key = .ok value ↔ line = ascii key ++ value := by
  unfold field
  constructor
  · intro read
    split at read
    · rename_i found
      cases read
      unfold expectField at found
      split at found
      · rename_i front
        obtain ⟨rest, rfl⟩ := List.isPrefixOf_iff_prefix.mp front
        rw [List.drop_left] at found
        rw [Option.some.inj found]
      · cases found
    · cases read
  · rintro rfl
    rw [expectField_append]

theorem splitLines_ok : splitLines text = .ok lines
    ↔ text = framed lines ∧ lines ≠ [] ∧ ∀ line ∈ lines, newline ∉ line := by
  rw [← frame_spelled]
  unfold splitLines
  cases frame text <;> simp

theorem keyed_clean {key value : Bytes} (first : newline ∉ key) (second : newline ∉ value) : newline ∉ key ++ value := by
  rw [List.mem_append, not_or]
  exact ⟨first, second⟩

theorem ValidPermit.target (valid : ValidPermit p) : newline ∉ p.platform ∧ newline ∉ p.architecture
    ∧ p.platform.length ≤ 7 ∧ p.architecture.length ≤ 5 := by
  have platform := List.contains_iff_mem.mp valid.platform
  have architecture := List.contains_iff_mem.mp valid.architecture
  simp only [List.mem_cons, List.not_mem_nil, or_false] at platform architecture
  rcases platform with same | same | same <;> rcases architecture with same' | same' <;>
    rw [same, same'] <;> decide

theorem hex_clean {text : Bytes} (hex : isLowercaseHex text = true) : newline ∉ text := not_mem_of_all hex (by decide)

theorem ValidPermit.clean (valid : ValidPermit p) : ∀ line ∈ permitLines p, newline ∉ line := by
  have commit := valid.commit
  simp only [isValidObjectId, Bool.and_eq_true] at commit
  have number : ∀ n, newline ∉ decimal n := fun n => decimal_avoids (by decide)
  unfold permitLines
  simp only [List.forall_mem_cons, List.not_mem_nil, false_implies, implies_true, and_true]
  refine ⟨by decide, keyed_clean (by decide) (isValidProjectName_avoids valid.project),
    keyed_clean (by decide) (hex_clean commit.2),
    keyed_clean (by decide) (hex_clean (isValidSha256Hex_iff.mp valid.lock).2),
    keyed_clean (by decide) (hex_clean (isValidSha256Hex_iff.mp valid.inventory).2),
    keyed_clean (by decide) valid.target.1, keyed_clean (by decide) valid.target.2.1,
    keyed_clean (by decide) (isValidCiLabel_avoids valid.abi).1,
    keyed_clean (by decide) (isValidCiId_avoids valid.job (by decide)),
    keyed_clean (by decide) (hex_clean (isValidSha256Hex_iff.mp valid.lease).2),
    keyed_clean (by decide) (hex_clean (isLeaseToken_iff.mp valid.nonce).2), keyed_clean (by decide) (number _),
    keyed_clean (by decide) (number _), keyed_clean (by decide) (number _)⟩

theorem ValidPermit.fits (valid : ValidPermit p) : (permitText p).length ≤ 4096 := by
  have number : ∀ n : UInt64, (decimal n.toNat).length ≤ 20 := fun n =>
    decimal_length_le (by decide) (n.toNat_lt.trans (by decide))
  have attempt := number p.attempt.toUInt64
  rw [UInt32.toNat_toUInt64] at attempt
  have issued := number p.issued_epoch
  have expires := number p.expires_epoch
  have project := isValidProjectName_length valid.project
  have commit := isValidObjectId_length valid.commit
  have lock := (isValidSha256Hex_iff.mp valid.lock).1
  have inventory := (isValidSha256Hex_iff.mp valid.inventory).1
  have lease := (isValidSha256Hex_iff.mp valid.lease).1
  have nonce := (isLeaseToken_iff.mp valid.nonce).1
  have target := valid.target.2.2
  have abi : p.abi.length ≤ 32 := isValidCiLabel_length valid.abi
  have job : p.job_id.length ≤ 64 := isValidCiId_length valid.job
  have keys : (ascii "dependency-permit-v1").length = 20 ∧ (ascii "project=").length = 8
      ∧ (ascii "commit=").length = 7 ∧ (ascii "lock_sha256=").length = 12
      ∧ (ascii "inventory_sha256=").length = 17 ∧ (ascii "platform=").length = 9
      ∧ (ascii "architecture=").length = 13 ∧ (ascii "abi=").length = 4 ∧ (ascii "job_id=").length = 7
      ∧ (ascii "lease_sha256=").length = 13 ∧ (ascii "nonce=").length = 6 ∧ (ascii "attempt=").length = 8
      ∧ (ascii "issued=").length = 7 ∧ (ascii "expires=").length = 8 := by decide
  have short : ∀ line ∈ permitLines p, line.length + 1 ≤ 128 := by
    simp only [permitLines, List.forall_mem_cons, List.length_append, keys, List.not_mem_nil, false_implies,
      implies_true, and_true]
    clear keys
    omega
  rw [permitText_framed, framed_length]
  refine (Workflow.sum_le_bound fun size member => ?_).trans (Nat.le_of_ble_eq_true rfl : 14 * 128 ≤ 4096)
  obtain ⟨line, inside, rfl⟩ := List.mem_map.mp member
  exact short line inside

theorem permitOf_ok {project commit lock_sha256 inventory_sha256 platform architecture abi job_id lease_sha256 nonce : Bytes}
    {attempt issued expires : Bytes} (read : permitOf project commit lock_sha256 inventory_sha256 platform architecture abi
      job_id lease_sha256 nonce (canonicalNumber attempt) (canonicalNumber issued) (canonicalNumber expires) = .ok p) :
    ValidPermit p ∧ (p.project = project ∧ p.commit = commit ∧ p.lock_sha256 = lock_sha256
      ∧ p.inventory_sha256 = inventory_sha256 ∧ p.platform = platform ∧ p.architecture = architecture ∧ p.abi = abi
      ∧ p.job_id = job_id ∧ p.lease_sha256 = lease_sha256 ∧ p.nonce = nonce)
      ∧ attempt = decimal p.attempt.toNat ∧ issued = decimal p.issued_epoch.toNat
      ∧ expires = decimal p.expires_epoch.toNat := by
  unfold permitOf at read
  split at read
  · rename_i a i e first second third
    simp only [bind_ok, rejectIf_ok, not_not, pure_ok] at read
    obtain ⟨_, ⟨h₁, h₂, h₃, h₄, h₅, h₆, h₇, h₈, h₉, h₁₀, some_attempt, few, h₁₁, later, soon⟩, rfl⟩ := read
    have exact_attempt : a.toUInt32.toNat = a.toNat := by
      rw [UInt64.toNat_toUInt32]
      exact Nat.mod_eq_of_lt (Nat.lt_of_le_of_lt few (by decide))
    have nonzero : a.toUInt32 ≠ 0 := by
      intro zero
      rw [zero] at exact_attempt
      exact some_attempt (UInt64.toNat_inj.mp exact_attempt.symm)
    refine ⟨⟨h₁, h₂, h₃, h₄, h₅, h₆, h₇, h₈, h₉, h₁₀, ⟨nonzero, exact_attempt.symm ▸ few⟩, h₁₁, later, soon⟩,
      ⟨rfl, rfl, rfl, rfl, rfl, rfl, rfl, rfl, rfl, rfl⟩, ?_, canonicalNumber_iff.mp second, canonicalNumber_iff.mp third⟩
    rw [exact_attempt]
    exact canonicalNumber_iff.mp first
  · cases read

theorem ValidPermit.permitOf (valid : ValidPermit p) : permitOf p.project p.commit p.lock_sha256 p.inventory_sha256
    p.platform p.architecture p.abi p.job_id p.lease_sha256 p.nonce (canonicalNumber (decimal p.attempt.toNat))
    (canonicalNumber (decimal p.issued_epoch.toNat)) (canonicalNumber (decimal p.expires_epoch.toNat)) = .ok p := by
  have attempt : canonicalNumber (decimal p.attempt.toNat) = some p.attempt.toUInt64 :=
    canonicalNumber_iff.mpr (by rw [UInt32.toNat_toUInt64])
  have nonzero : p.attempt.toUInt64 ≠ 0 := by
    intro zero
    have value := congrArg UInt64.toNat zero
    rw [UInt32.toNat_toUInt64] at value
    exact valid.attempt.1 (UInt32.toNat_inj.mp value)
  have few : p.attempt.toUInt64.toNat ≤ 1000 := by
    rw [UInt32.toNat_toUInt64]
    exact valid.attempt.2
  rw [attempt, canonicalNumber_iff.mpr rfl, canonicalNumber_iff.mpr rfl]
  simp only [Runner.permitOf, bind_ok, rejectIf_ok, not_not, pure_ok]
  refine ⟨(), ⟨valid.project, valid.commit, valid.lock, valid.inventory, valid.lease, valid.nonce, valid.platform,
    valid.architecture, valid.abi, valid.job, nonzero, few, valid.issued, valid.lifetime⟩, ?_⟩
  simp

/-- A payload is accepted as a permit exactly when the permit is valid and the payload is how it is
written. -/
theorem parseCiDependencyStartPermit_iff : parseCiDependencyStartPermit payload = .ok p
    ↔ ValidPermit p ∧ payload = permitText p := by
  unfold parseCiDependencyStartPermit
  constructor
  · intro read
    simp only [bind_ok, rejectIf_ok] at read
    obtain ⟨_, size, items, split_items, read⟩ := read
    obtain ⟨rfl, _, _⟩ := splitLines_ok.mp split_items
    split at read
    · simp only [bind_ok, rejectIf_ok, not_not, field_ok] at read
      obtain ⟨_, h₀, project, h₁, commit, h₂, lock_sha256, h₃, inventory_sha256, h₄, platform, h₅, architecture, h₆,
        abi, h₇, job_id, h₈, lease_sha256, h₉, nonce, h₁₀, attempt, h₁₁, issued, h₁₂, expires, h₁₃, read⟩ := read
      obtain ⟨valid, ⟨rfl, rfl, rfl, rfl, rfl, rfl, rfl, rfl, rfl, rfl⟩, rfl, rfl, rfl⟩ := permitOf_ok read
      refine ⟨valid, ?_⟩
      rw [permitText_framed, permitLines, h₀, h₁, h₂, h₃, h₄, h₅, h₆, h₇, h₈, h₉, h₁₀, h₁₁, h₁₂, h₁₃]
    · cases read
  · rintro ⟨valid, same⟩
    rw [same]
    have written := splitLines_ok.mpr ⟨permitText_framed p, List.cons_ne_nil _ _, valid.clean⟩
    have filled : permitText p ≠ [] := by
      rw [permitText_framed, permitLines, framed_cons]
      exact List.append_ne_nil_of_right_ne_nil _ (List.cons_ne_nil _ _)
    simp only [bind_ok, rejectIf_ok]
    refine ⟨(), not_or.mpr ⟨filled, Nat.not_lt.mpr valid.fits⟩, _, written, ?_⟩
    unfold permitLines
    simp only [bind_ok, rejectIf_ok, not_not, field_ok]
    exact ⟨(), trivial, p.project, rfl, p.commit, rfl, p.lock_sha256, rfl, p.inventory_sha256, rfl, p.platform, rfl,
      p.architecture, rfl, p.abi, rfl, p.job_id, rfl, p.lease_sha256, rfl, p.nonce, rfl, _, rfl, _, rfl, _, rfl,
      valid.permitOf⟩

theorem formatCiDependencyStartPermit_ok : formatCiDependencyStartPermit p = .ok payload
    ↔ payload = permitText p ∧ ∃ q, parseCiDependencyStartPermit payload = .ok q := by
  unfold formatCiDependencyStartPermit
  simp only [bind_ok, pure_ok]
  constructor
  · rintro ⟨q, read, rfl⟩
    exact ⟨rfl, q, read⟩
  · rintro ⟨same, q, read⟩
    rw [same] at read ⊢
    exact ⟨q, read, rfl⟩

/-- What is accepted is the only spelling of what it says, for commands and for permits, and every
valid one is accepted and read back. -/
theorem one_spelling :
    (∀ text command, parseCiRunnerCommand text = .ok command → formatCiRunnerCommand command = .ok text)
      ∧ (∀ command, ValidCommand command →
        ∃ text, formatCiRunnerCommand command = .ok text ∧ parseCiRunnerCommand text = .ok command)
      ∧ (∀ payload permit, parseCiDependencyStartPermit payload = .ok permit →
        formatCiDependencyStartPermit permit = .ok payload)
      ∧ ∀ permit, ValidPermit permit →
        ∃ payload, formatCiDependencyStartPermit permit = .ok payload
          ∧ parseCiDependencyStartPermit payload = .ok permit := by
  refine ⟨fun text command read => (parseCiRunnerCommand_iff.mp read).2, fun command valid => ?_,
    fun payload permit read => ?_, fun permit valid => ?_⟩
  · have written := formatCiRunnerCommand_ok valid.version
    exact ⟨_, written, parseCiRunnerCommand_iff.mpr ⟨valid, written⟩⟩
  · exact formatCiDependencyStartPermit_ok.mpr ⟨(parseCiDependencyStartPermit_iff.mp read).2, permit, read⟩
  · have read := parseCiDependencyStartPermit_iff.mpr ⟨valid, rfl⟩
    exact ⟨_, formatCiDependencyStartPermit_ok.mpr ⟨rfl, permit, read⟩, read⟩

end

/-- A put at the largest offset. -/
def lastPut : CiRunnerCommand where
  op := .kPut
  protocol_version := 2
  job_id := ascii "j1"
  token := ascii "0123456789abcdef0123456789abcdef"
  kind := ascii "artifact"
  name := ascii "bundle"
  offset := 0xffffffffffffffff
  total := 0xffffffffffffffff
  sha256 := ascii "0123456789abcdef0123456789abcdef0123456789abcdef0123456789abcdef"

theorem one_spelling_lastPut :
    ∃ text, formatCiRunnerCommand lastPut = .ok text ∧ parseCiRunnerCommand text = .ok lastPut :=
  one_spelling.2.1 lastPut
    (.put (.inr rfl) ⟨by decide, by decide⟩ (by decide) (by decide) (by decide) (by decide))

end CkGit.Runner
