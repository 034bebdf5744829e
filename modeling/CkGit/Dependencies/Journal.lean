import CkGit.Ci.JobCodec
import CkGit.Dependencies.Model

/-!
What a request directory reads back: the rows of its journal and its commits.
-/
namespace CkGit.Dependencies
open CkGit.Base CkGit.Ci

section
variable {lock : CiDependencyLock} {decisions more : List CiDependencyDecision} {commits : List Bytes}

@[simp] theorem failIf_ok {bad : Prop} [Decidable bad] {message : String} {u : Unit} :
    failIf bad message = .ok u ↔ ¬ bad := rejectIf_ok

def rowOf (decision : CiDependencyDecision) : Bytes :=
  journalRow decision.sequence.toNat decision.epoch.toNat decision.effective_uid.toNat decision.package decision.action

/-- The decisions are numbered from one, each about a package of the lock. -/
def Numbered (lock : CiDependencyLock) (decisions : List CiDependencyDecision) : Prop :=
  ∀ i decision, decisions[i]? = some decision → decision.sequence.toNat = i + 1
    ∧ decision.package ∈ lock.packages.map (·.name) ∧ decision.action ∈ actions

theorem action_avoids {action : Bytes} (known : action ∈ actions) {byte : UInt8} (separator : byte = tab ∨ byte = newline) :
    byte ∉ action := by
  have all : actions.all (fun action => action.all fun c => c != tab && c != newline) = true := by decide
  intro member
  have each := List.all_eq_true.mp (List.all_eq_true.mp all action known) byte member
  simp only [Bool.and_eq_true, bne_iff_ne] at each
  exact separator.elim each.1 each.2

theorem token_avoids {value : Bytes} {limit : Nat} (safe : safeToken value limit = true) {byte : UInt8}
    (other : isTokenCharacter byte = false) : byte ∉ value := by
  simp only [safeToken, Bool.and_eq_true] at safe
  exact not_mem_of_all safe.2 other

/-- The names of the packages can stand in a row. -/
def SafeNames (lock : CiDependencyLock) : Prop := ∀ package ∈ lock.packages, safeToken package.name 128 = true

theorem name_safe (safe : SafeNames lock) {name : Bytes} (listed : name ∈ lock.packages.map (·.name)) :
    safeToken name 128 = true := by
  obtain ⟨package, member, rfl⟩ := List.mem_map.mp listed
  exact safe package member

/-- No field of a row holds a tab or a newline. -/
theorem fields_avoid {decision : CiDependencyDecision} (safe : SafeNames lock)
    (package : decision.package ∈ lock.packages.map (·.name)) (action : decision.action ∈ actions) {byte : UInt8}
    (separator : byte = tab ∨ byte = newline) :
    byte ∉ decimal decision.sequence.toNat ∧ byte ∉ decimal decision.epoch.toNat
      ∧ byte ∉ decimal decision.effective_uid.toNat ∧ byte ∉ decision.package ∧ byte ∉ decision.action := by
  have token := name_safe safe package
  have known := action_avoids action separator
  rcases separator with rfl | rfl
  · exact ⟨decimal_avoids rfl, decimal_avoids rfl, decimal_avoids rfl, token_avoids token rfl, known⟩
  · exact ⟨decimal_avoids rfl, decimal_avoids rfl, decimal_avoids rfl, token_avoids token rfl, known⟩

theorem number_decimal (n : UInt64) : number (decimal n.toNat) = .ok n := by
  have small : n.toNat ≤ 2 ^ 64 - 1 := by
    have := n.toNat_lt
    omega
  rw [number, parseDecimal_decimal small]
  simp

theorem decisionRow_row {decision : CiDependencyDecision} (safe : SafeNames lock)
    (room : decisions.length < kMaximumDecisions) (numbered : decision.sequence.toNat = decisions.length + 1)
    (package : decision.package ∈ lock.packages.map (·.name)) (action : decision.action ∈ actions) :
    decisionRow lock decisions (rowOf decision) = .ok (decisions ++ [decision]) := by
  obtain ⟨sequence, epoch, effective_uid, name, act⟩ := fields_avoid safe package action (.inl rfl)
  have shape : rowOf decision = decimal decision.sequence.toNat ++ tab :: (decimal decision.epoch.toNat
      ++ tab :: (decimal decision.effective_uid.toNat ++ tab :: (decision.package ++ tab :: decision.action))) := by
    simp [rowOf, journalRow]
  rw [decisionRow, shape, List.splitOn_append_cons_self_of_not_mem sequence,
    List.splitOn_append_cons_self_of_not_mem epoch, List.splitOn_append_cons_self_of_not_mem effective_uid,
    List.splitOn_append_cons_self_of_not_mem name, List.splitOn_eq_singleton act]
  simp only [number_decimal, bind_ok, pure_ok, failIf_ok, Except.ok.injEq, exists_eq_left']
  refine ⟨(), Nat.not_le.mpr room, (), ?_, trivial⟩
  rintro (wrong | unknown | other)
  · exact wrong numbered
  · exact unknown package
  · exact other action

theorem decisionRows (safe : SafeNames lock) (numbered : Numbered lock (decisions ++ more))
    (few : (decisions ++ more).length ≤ kMaximumDecisions) :
    (more.map rowOf).foldlM (decisionRow lock) decisions = .ok (decisions ++ more) := by
  induction more generalizing decisions with
  | nil =>
    rw [List.append_nil]
    rfl
  | cons decision rest ih =>
    have shape : decisions ++ decision :: rest = decisions ++ [decision] ++ rest := by simp
    have here : (decisions ++ decision :: rest)[decisions.length]? = some decision := by simp
    obtain ⟨sequence, package, action⟩ := numbered _ _ here
    have room : decisions.length < kMaximumDecisions := by
      rw [List.length_append, List.length_cons] at few
      omega
    rw [List.map_cons, List.foldlM_cons, bind_ok]
    refine ⟨_, decisionRow_row safe room sequence package action, ?_⟩
    rw [ih (shape ▸ numbered) (shape ▸ few), shape]

theorem row_clean (safe : SafeNames lock) (numbered : Numbered lock decisions) :
    ∀ row ∈ decisions.map rowOf, newline ∉ row := by
  intro row member
  obtain ⟨decision, listed, rfl⟩ := List.mem_map.mp member
  obtain ⟨i, here⟩ := List.mem_iff_getElem?.mp listed
  obtain ⟨_, package, action⟩ := numbered i decision here
  obtain ⟨sequence, epoch, effective_uid, name, act⟩ := fields_avoid safe package action (.inr rfl)
  have tabs : newline ≠ tab := by decide
  simp [rowOf, journalRow, sequence, epoch, effective_uid, name, act, tabs]

theorem history_rows (safe : SafeNames lock) (numbered : Numbered lock decisions)
    (few : decisions.length ≤ kMaximumDecisions) : history (framed (decisions.map rowOf)) lock = .ok decisions := by
  have read := @decisionRows lock [] decisions safe numbered few
  rw [history, rows, splitOn_framed (row_clean safe numbered), List.dropLast_concat, List.getLast?_concat, bind_ok]
  exact ⟨decisions, read, bind_ok.mpr ⟨(), failIf_ok.mpr (not_not.mpr rfl), rfl⟩⟩

theorem row_length (safe : SafeNames lock) {decision : CiDependencyDecision}
    (package : decision.package ∈ lock.packages.map (·.name)) (action : decision.action ∈ actions) :
    (rowOf decision).length ≤ 200 := by
  have sequence := decimal_length_le (n := decision.sequence.toNat) (k := 20) (by decide)
    (Nat.lt_trans decision.sequence.toNat_lt (by decide))
  have epoch := decimal_length_le (n := decision.epoch.toNat) (k := 20) (by decide)
    (Nat.lt_trans decision.epoch.toNat_lt (by decide))
  have effective_uid := decimal_length_le (n := decision.effective_uid.toNat) (k := 20) (by decide)
    (Nat.lt_trans decision.effective_uid.toNat_lt (by decide))
  have token := name_safe safe package
  simp only [safeToken, Bool.and_eq_true, decide_eq_true_eq] at token
  have short : decision.action.length ≤ 7 := by
    have all : actions.all (fun action => action.length ≤ 7) = true := by decide
    exact of_decide_eq_true (List.all_eq_true.mp all _ action)
  have name := token.1.2
  simp only [rowOf, journalRow, List.length_append, List.length_cons]
  omega

/-- A journal never reaches its byte limit before it has all its rows. -/
theorem journal_length (safe : SafeNames lock) (numbered : Numbered lock decisions)
    (few : decisions.length ≤ kMaximumDecisions) : (framed (decisions.map rowOf)).length ≤ kMaximumJournalBytes := by
  have each : ∀ rows : List Bytes, (∀ row ∈ rows, row.length ≤ 200) → (framed rows).length ≤ rows.length * 201 := by
    intro rows short
    induction rows with
    | nil => exact Nat.le_refl _
    | cons row rest ih =>
      have first := short row List.mem_cons_self
      have later := ih fun other member => short other (List.mem_cons_of_mem _ member)
      simp only [framed_cons, List.length_append, List.length_cons]
      omega
  have bound := each (decisions.map rowOf) fun row member => by
    obtain ⟨decision, listed, rfl⟩ := List.mem_map.mp member
    obtain ⟨i, here⟩ := List.mem_iff_getElem?.mp listed
    obtain ⟨_, package, action⟩ := numbered i decision here
    exact row_length safe package action
  have most : kMaximumDecisions * 201 ≤ kMaximumJournalBytes := by decide
  rw [List.length_map] at bound
  have scaled := Nat.mul_le_mul_right 201 few
  omega

theorem Numbered.append {decision : CiDependencyDecision} (numbered : Numbered lock decisions)
    (sequence : decision.sequence.toNat = decisions.length + 1)
    (package : decision.package ∈ lock.packages.map (·.name)) (action : decision.action ∈ actions) :
    Numbered lock (decisions ++ [decision]) := by
  intro i other here
  by_cases before : i < decisions.length
  · rw [List.getElem?_append_left before] at here
    exact numbered i other here
  · rw [List.getElem?_append_right (Nat.not_lt.mp before), List.getElem?_singleton] at here
    split at here
    · rename_i last
      cases here
      have at_end : i = decisions.length := by omega
      exact ⟨at_end ▸ sequence, package, action⟩
    · cases here

/-- What a request keeps of its commits. -/
structure Commits (commits : List Bytes) : Prop where
  valid : ∀ commit ∈ commits, isValidObjectId commit = true
  once : commits.Nodup
  few : commits.length ≤ kMaximumCommits

theorem commit_length {commit : Bytes} (valid : isValidObjectId commit = true) : commit.length ≤ 64 := by
  simp only [isValidObjectId, Bool.and_eq_true, Bool.or_eq_true, beq_iff_eq] at valid
  omega

theorem commit_clean {commit : Bytes} (valid : isValidObjectId commit = true) : newline ∉ commit := by
  simp only [isValidObjectId, isLowercaseHex, Bool.and_eq_true] at valid
  exact not_mem_of_all valid.2 rfl

theorem commitRows {earlier : List Bytes} (kept : Commits (earlier ++ commits)) :
    commits.foldlM commitRow earlier = .ok (earlier ++ commits) := by
  induction commits generalizing earlier with
  | nil =>
    rw [List.append_nil]
    rfl
  | cons commit rest ih =>
    have shape : earlier ++ commit :: rest = earlier ++ [commit] ++ rest := by simp
    have fresh : commit ∉ earlier := fun member =>
      (List.nodup_append.mp kept.once).2.2 commit member commit List.mem_cons_self rfl
    have valid := kept.valid commit (List.mem_append_right _ List.mem_cons_self)
    have room : earlier.length < kMaximumCommits := by
      have few := kept.few
      rw [List.length_append, List.length_cons] at few
      omega
    rw [List.foldlM_cons, bind_ok]
    refine ⟨earlier ++ [commit], ?_, ?_⟩
    · rw [commitRow, bind_ok]
      refine ⟨(), failIf_ok.mpr (Nat.not_le.mpr room), bind_ok.mpr ⟨(), failIf_ok.mpr ?_, rfl⟩⟩
      exact not_or.mpr ⟨not_not.mpr valid, fresh⟩
    · rw [ih (shape ▸ kept), shape]

theorem commits_rows (kept : Commits commits) :
    rows (framed commits) commitRow "invalid request commits" = .ok commits := by
  have read := @commitRows commits [] kept
  rw [rows, splitOn_framed fun commit member => commit_clean (kept.valid commit member), List.dropLast_concat,
    List.getLast?_concat, bind_ok]
  exact ⟨commits, read, bind_ok.mpr ⟨(), failIf_ok.mpr (not_not.mpr rfl), rfl⟩⟩

theorem commits_length (kept : Commits commits) : (framed commits).length ≤ kMaximumCommitsBytes := by
  have each : ∀ lines : List Bytes, (∀ line ∈ lines, line.length ≤ 64) → (framed lines).length ≤ lines.length * 65 := by
    intro lines short
    induction lines with
    | nil => exact Nat.le_refl _
    | cons line rest ih =>
      have first := short line List.mem_cons_self
      have later := ih fun other member => short other (List.mem_cons_of_mem _ member)
      simp only [framed_cons, List.length_append, List.length_cons]
      omega
  have bound := each commits fun commit member => commit_length (kept.valid commit member)
  have scaled := Nat.mul_le_mul_right 65 kept.few
  have most : kMaximumCommits * 65 ≤ kMaximumCommitsBytes := by decide
  omega

theorem Commits.append {commit : Bytes} (kept : Commits commits) (valid : isValidObjectId commit = true)
    (fresh : commit ∉ commits) (room : commits.length < kMaximumCommits) : Commits (commits ++ [commit]) where
  valid := by
    intro other member
    rcases List.mem_append.mp member with before | last
    · exact kept.valid other before
    · rw [List.mem_singleton.mp last]
      exact valid
  once := by
    refine List.nodup_append.mpr ⟨kept.once, List.nodup_singleton _, fun a member b last => ?_⟩
    rw [List.mem_singleton.mp last]
    exact fun same => fresh (same ▸ member)
  few := by
    rw [List.length_append, List.length_singleton]
    omega

/-- The records of a request with this lock, these decisions and these commits. -/
structure Stored (readers : Readers) (digest_value : Bytes) (request : CiDependencyRequest)
    (directory : RequestDirectory) : Prop where
  lock : ∃ bytes, directory.lock = some bytes ∧ parseCiDependencyLock readers bytes = .ok request.lock
  digest : request.lock.sha256 = digest_value
  journal : directory.journal.getD [] = framed (request.history.map rowOf)
  numbered : Numbered request.lock request.history
  few : request.history.length ≤ kMaximumDecisions
  commits : directory.commits.getD [] = framed request.commits
  kept : Commits request.commits

theorem readOptional_ok {record : Option Bytes} {limit : Nat} (fits : (record.getD []).length ≤ limit) :
    readOptional record limit = .ok (record.getD []) := by
  cases record with
  | none => rfl
  | some bytes =>
    rw [readOptional, bind_ok]
    exact ⟨(), failIf_ok.mpr (Nat.not_lt.mpr fits), rfl⟩

variable {readers : Readers} {digest_value : Bytes} {request : CiDependencyRequest} {directory : RequestDirectory}

theorem Stored.safe (stored : Stored readers digest_value request directory) : SafeNames request.lock := by
  obtain ⟨bytes, _, parsed⟩ := stored.lock
  exact (parseCiDependencyLock_ok parsed).2.2.2.2

theorem Stored.journal_fits (stored : Stored readers digest_value request directory) :
    (directory.journal.getD []).length ≤ kMaximumJournalBytes := by
  rw [stored.journal]
  exact journal_length stored.safe stored.numbered stored.few

theorem Stored.commits_fit (stored : Stored readers digest_value request directory) :
    (directory.commits.getD []).length ≤ kMaximumCommitsBytes := by
  rw [stored.commits]
  exact commits_length stored.kept

theorem Stored.load (stored : Stored readers digest_value request directory) :
    load readers directory digest_value = .ok request := by
  obtain ⟨bytes, there, parsed⟩ := stored.lock
  have fits := (parseCiDependencyLock_ok parsed).2.1
  have text : read directory.lock kMaximumLockBytes = .ok bytes := by
    rw [there, read, readOptional_ok (by exact fits)]
    rfl
  unfold Dependencies.load
  rw [bind_ok]
  refine ⟨bytes, text, bind_ok.mpr ⟨request.lock, parsed, bind_ok.mpr ⟨(), failIf_ok.mpr (not_not.mpr stored.digest), ?_⟩⟩⟩
  rw [bind_ok]
  refine ⟨_, readOptional_ok stored.journal_fits, ?_⟩
  rw [stored.journal, bind_ok]
  refine ⟨_, history_rows stored.safe stored.numbered stored.few, ?_⟩
  rw [bind_ok]
  refine ⟨_, readOptional_ok stored.commits_fit, ?_⟩
  rw [stored.commits, bind_ok]
  exact ⟨_, commits_rows stored.kept, rfl⟩

end

end CkGit.Dependencies
