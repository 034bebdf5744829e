import CkGit.Dependencies.Accepted
import CkGit.Dependencies.Runs

/-!
Dependency approval over whole runs: admission follows the decisions so far, no
acknowledged decision or commit is lost, every request can be read, and an
approved package can be revoked.
-/
namespace CkGit.Dependencies
open CkGit.Base CkGit.Ci

inductive Call where
  | register (project bytes commit : Bytes)
  | decide (project digest_value package action : Bytes) (now : UInt64) (euid : UInt32)
  deriving DecidableEq

def Call.program (readers : Readers) (call : Call) : Prog Store DependencyError Unit :=
  match call with
  | .register project bytes commit => do
    let _ ← registerCiDependencyRequest readers project bytes commit
    return ()
  | .decide project digest_value package action now euid =>
    decideCiDependency readers project digest_value package action now euid

inductive Outcome where
  | returned
  | threw
  /-- Crashed between two file operations. -/
  | cut
  deriving DecidableEq

abbrev History := List (Call × Outcome)

inductive Step (readers : Readers) (call : Call) : Outcome → Store → Store → Prop where
  | returned {store after : Store} (run : (call.program readers).exec store = (.ok (), after)) :
      Step readers call .returned store after
  | threw {store after : Store} {error : DependencyError} (run : (call.program readers).exec store = (.error error, after)) :
      Step readers call .threw store after
  | cut {store after : Store} (shown : after = store ∨ after ∈ (call.program readers).crashes store) :
      Step readers call .cut store after

/-- Where the code keeps its promise: no crash between the directory of a new request and its
lock, at most 1024 requests in a project, and a journal that is full holds no approval. -/
structure Meets (readers : Readers) (store : Store) (call : Call) (outcome : Outcome) (after : Store) : Prop where
  whole : ∀ project bytes commit, call = .register project bytes commit → outcome = .cut →
    Uncut readers store project bytes after
  few : ∀ project bytes commit lock, call = .register project bytes commit →
    parseCiDependencyLock readers bytes = .ok lock → requestAt store (project, lock.sha256) = none →
    requestCount store project < kMaximumRequests
  room : ∀ project digest_value package action now euid, call = .decide project digest_value package action now euid →
    LeavesRoom readers store project digest_value package action

inductive Run (readers : Readers) (condition : Store → Call → Outcome → Store → Prop) : History → Store → Prop where
  | start : Run readers condition [] []
  | step {history : History} {store after : Store} {call : Call} {outcome : Outcome}
      (earlier : Run readers condition history store) (step : Step readers call outcome store after)
      (met : condition store call outcome after) : Run readers condition (history ++ [(call, outcome)]) after

/-- The effect of a call. -/
inductive CallEffect (readers : Readers) : Call → Effect → Prop where
  | register {project bytes commit : Bytes} {lock : CiDependencyLock}
      (parsed : parseCiDependencyLock readers bytes = .ok lock) :
      CallEffect readers (.register project bytes commit) (.registered (project, lock.sha256) bytes commit)
  | decide {project digest_value package action : Bytes} {now : UInt64} {euid : UInt32} :
      CallEffect readers (.decide project digest_value package action now euid)
        (.decided (project, digest_value) package action)

/-- The effects of a history: each acknowledged call once, in order, and of one that was cut off
nothing, all of it, or a registration without its commit. -/
inductive Explains (readers : Readers) : History → List Effect → Prop where
  | nil : Explains readers [] []
  | returned {history effects call effect} (rest : Explains readers history effects)
      (own : CallEffect readers call effect) :
      Explains readers (history ++ [(call, .returned)]) (effects ++ [effect])
  | threw {history effects call} (rest : Explains readers history effects) :
      Explains readers (history ++ [(call, .threw)]) effects
  | lost {history effects call} (rest : Explains readers history effects) :
      Explains readers (history ++ [(call, .cut)]) effects
  | kept {history effects call effect} (rest : Explains readers history effects)
      (own : CallEffect readers call effect) :
      Explains readers (history ++ [(call, .cut)]) (effects ++ [effect])
  | locked {history effects project bytes commit lock} (rest : Explains readers history effects)
      (parsed : parseCiDependencyLock readers bytes = .ok lock) :
      Explains readers (history ++ [(.register project bytes commit, .cut)])
        (effects ++ [.registered (project, lock.sha256) bytes []])

/-- What admits a commit to a request. -/
structure Admitted (readers : Readers) (effects : List Effect)
    (project digest_value commit platform architecture : Bytes) : Prop where
  named : isValidProjectName project = true
  formed : isValidObjectId commit = true
  approved : ∃ bytes lock, Registered (project, digest_value) bytes effects
    ∧ parseCiDependencyLock readers bytes = .ok lock
    ∧ (∀ package ∈ lock.packages,
      latest (decisionsOf (project, digest_value) effects) package.name = some (ascii "approve"))
    ∧ lock.platform = platform ∧ lock.architecture = architecture
  registered : commit ∈ commitsOf (project, digest_value) effects

structure Sound (readers : Readers) (effects : List Effect) (store : Store) : Prop where
  admission : ∀ project digest_value commit platform architecture,
    (∃ request, withApprovedCiDependencyReview readers store project digest_value commit platform architecture = .ok request)
      ↔ Admitted readers effects project digest_value commit platform architecture
  kept : ∀ project digest_value bytes, isValidProjectName project = true → Registered (project, digest_value) bytes effects →
    ∃ request, getCiDependencyRequest readers store project digest_value = .ok (some request)
      ∧ parseCiDependencyLock readers bytes = .ok request.lock
      ∧ request.decisions = decisionsOf (project, digest_value) effects
      ∧ request.commits = commitsOf (project, digest_value) effects
  absent : ∀ project digest_value, isValidProjectName project = true → isValidSha256Hex digest_value = true →
    (∀ bytes, ¬ Registered (project, digest_value) bytes effects) →
    getCiDependencyRequest readers store project digest_value = .ok none
  listed : ∀ project limit, isValidProjectName project = true →
    ∃ requests truncated, listCiDependencyRequests readers store project limit = .ok (requests, truncated)
      ∧ ∀ digest_value bytes, kMaximumRequests ≤ limit → Registered (project, digest_value) bytes effects →
        ∃ request ∈ requests, getCiDependencyRequest readers store project digest_value = .ok (some request)
  revocable : ∀ project digest_value package now euid, isValidProjectName project = true →
    latest (decisionsOf (project, digest_value) effects) package = some (ascii "approve") →
    ∃ after, (decideCiDependency readers project digest_value package (ascii "revoke") now euid).exec store = (.ok (), after)

section
variable {readers : Readers} {effects : List Effect} {store after : Store} {history : History} {call : Call}
  {outcome : Outcome} {project digest_value package : Bytes}

theorem latest_mem {decisions : List (Bytes × Bytes)} {action : Bytes} (found : latest decisions package = some action) :
    (package, action) ∈ decisions := by
  obtain ⟨pair, chosen, rfl⟩ := Option.map_eq_some_iff.mp found
  obtain ⟨hit, _⟩ := List.find?_eq_some_iff_append.mp chosen
  have same : pair.1 = package := of_decide_eq_true hit
  have member := List.mem_reverse.mp (List.mem_of_find?_eq_some chosen)
  rwa [← same]

theorem approved_iff {request : CiDependencyRequest} (filled : request.lock.packages ≠ [])
    (hex : isValidSha256Hex request.lock.sha256 = true) : ciDependencyApprovalStatus request = .approved
      ↔ ∀ package ∈ request.lock.packages, latest request.decisions package.name = some (ascii "approve") := by
  unfold ciDependencyApprovalStatus
  rw [if_neg (not_or.mpr ⟨filled, not_not.mpr hex⟩)]
  have other : ascii "reject" ≠ ascii "approve" := by decide
  constructor
  · intro status package member
    split at status
    · cases status
    · split at status
      · cases status
      · rename_i _ all
        by_contra different
        exact all (List.any_eq_true.mpr ⟨package, member, decide_eq_true different⟩)
  · intro all
    rw [if_neg, if_neg]
    · rw [List.any_eq_true]
      rintro ⟨package, member, different⟩
      exact of_decide_eq_true different (all package member)
    · rw [List.any_eq_true]
      rintro ⟨package, member, rejected⟩
      have same := of_decide_eq_true rejected
      rw [all package member] at same
      exact other (Option.some.inj same).symm

theorem Holds.request (h : Holds readers effects store) {bytes : Bytes}
    (known : Registered (project, digest_value) bytes effects) :
    ∃ directory request, requestAt store (project, digest_value) = some directory
      ∧ load readers directory digest_value = .ok request ∧ parseCiDependencyLock readers bytes = .ok request.lock
      ∧ request.lock.sha256 = digest_value
      ∧ request.decisions = decisionsOf (project, digest_value) effects
      ∧ request.commits = commitsOf (project, digest_value) effects := by
  obtain ⟨directory, found, own⟩ := h.there _ bytes known
  obtain ⟨request, stored, decisions, commits, _⟩ := h.stored _ directory found
  obtain ⟨text, own', parsed⟩ := stored.lock
  rw [own] at own'
  cases own'
  exact ⟨directory, request, found, stored.load, parsed, stored.digest, decisions, commits⟩

theorem digest_hex {lock : CiDependencyLock} {bytes : Bytes} (parsed : parseCiDependencyLock readers bytes = .ok lock) :
    isValidSha256Hex lock.sha256 = true := by
  rw [(parseCiDependencyLock_ok parsed).2.2.1]
  exact readers.hex bytes

theorem get_request (name : isValidProjectName project = true) (hex : isValidSha256Hex digest_value = true)
    {directory : RequestDirectory} {request : CiDependencyRequest}
    (found : requestAt store (project, digest_value) = some directory)
    (loads : load readers directory digest_value = .ok request) :
    getCiDependencyRequest readers store project digest_value = .ok (some request) := by
  unfold getCiDependencyRequest
  rw [bind_ok]
  refine ⟨(), failIf_ok.mpr (not_not.mpr name), bind_ok.mpr ⟨(), failIf_ok.mpr (not_not.mpr hex), ?_⟩⟩
  rw [found]
  exact bind_ok.mpr ⟨request, loads, rfl⟩

theorem Holds.admission (h : Holds readers effects store) {commit platform architecture : Bytes} :
    (∃ request, withApprovedCiDependencyReview readers store project digest_value commit platform architecture = .ok request)
      ↔ Admitted readers effects project digest_value commit platform architecture := by
  unfold withApprovedCiDependencyReview
  simp only [bind_ok, failIf_ok, pure_ok]
  constructor
  · rintro ⟨_, _, name, _, form, directory, found, record, loads, _, fits, rfl⟩
    cases there : requestAt store (project, digest_value) with
    | none =>
      unfold opened at found
      rw [there] at found
      cases found
    | some former =>
      obtain rfl := Except.ok.inj ((opened_some there).symm.trans found)
      obtain ⟨request, stored, decisions, commits, bytes, own, known⟩ := h.stored _ _ there
      obtain rfl := Except.ok.inj (stored.load.symm.trans loads)
      obtain ⟨text, own', parsed⟩ := stored.lock
      rw [own] at own'
      cases own'
      simp only [not_or, not_not] at name form fits
      obtain ⟨status, member, platform_same, architecture_same⟩ := fits
      have filled := (parseCiDependencyLock_ok parsed).2.2.2.1
      refine ⟨name, form.2, ⟨bytes, _, known, parsed, ?_, platform_same, architecture_same⟩, commits ▸ member⟩
      rw [← decisions]
      exact (approved_iff filled (digest_hex parsed)).mp status
  · rintro ⟨name, form, ⟨bytes, lock, known, parsed, approved, platform_same, architecture_same⟩, member⟩
    obtain ⟨directory, request, found, loads, reparsed, digest, decisions, commits⟩ := h.request known
    obtain rfl := Except.ok.inj (parsed.symm.trans reparsed)
    have hex := digest_hex parsed
    have filled := (parseCiDependencyLock_ok parsed).2.2.2.1
    refine ⟨request, (), not_not.mpr name, (), not_or.mpr ⟨not_not.mpr (digest ▸ hex), not_not.mpr form⟩, directory,
      opened_some found, request, loads, (), ?_, rfl⟩
    simp only [not_or, not_not]
    exact ⟨(approved_iff filled hex).mpr (decisions ▸ approved), commits ▸ member, platform_same, architecture_same⟩

theorem mem_listed {key : Key} : key ∈ listed store project ↔
    key ∈ store.map (·.1) ∧ key.1 = project ∧ isValidSha256Hex key.2 = true := by
  unfold listed
  rw [List.mem_filter]
  simp

theorem Holds.lists (h : Holds readers effects store) (name : isValidProjectName project = true) (limit : Nat) :
    ∃ requests truncated, listCiDependencyRequests readers store project limit = .ok (requests, truncated)
      ∧ ∀ digest_value bytes, kMaximumRequests ≤ limit → Registered (project, digest_value) bytes effects →
        ∃ request ∈ requests, getCiDependencyRequest readers store project digest_value = .ok (some request) := by
  let sorted := ((listed store project).map (·.2)).mergeSort fun a b => !Events.textBefore b a
  have count : ¬ ((listed store project).map (·.2)).length > kMaximumRequests := by
    rw [List.length_map]
    exact Nat.not_lt.mpr (h.few project)
  have found : names store project = .ok sorted := bind_ok.mpr ⟨(), failIf_ok.mpr count, rfl⟩
  have each : ∀ name ∈ sorted.take limit,
      ∃ request, (do load readers (← opened store (project, name)) name) = Except.ok request := by
    intro name member
    have inside := (List.mem_mergeSort.mp (List.mem_of_mem_take member))
    obtain ⟨key, listed_key, rfl⟩ := List.mem_map.mp inside
    obtain ⟨known, rfl, _⟩ := mem_listed.mp listed_key
    obtain ⟨entry, there, rfl⟩ := List.mem_map.mp known
    have at_key : requestAt store entry.1 = some entry.2 := Assoc.get_of_mem h.once there
    obtain ⟨request, stored, _⟩ := h.stored _ _ at_key
    refine ⟨request, ?_⟩
    rw [show ((entry.1.1, entry.1.2) : Key) = entry.1 from rfl, opened_some at_key]
    exact stored.load
  obtain ⟨requests, mapped⟩ := mapM_succeeds each
  refine ⟨requests, _, bind_ok.mpr ⟨(), failIf_ok.mpr (not_not.mpr name),
    bind_ok.mpr ⟨sorted, found, bind_ok.mpr ⟨requests, mapped, rfl⟩⟩⟩, ?_⟩
  intro digest_value bytes enough known
  obtain ⟨directory, request, at_key, loads, parsed, digest, _⟩ := h.request known
  have hex : isValidSha256Hex digest_value = true := digest ▸ digest_hex parsed
  have listed_key : (project, digest_value) ∈ listed store project :=
    mem_listed.mpr ⟨List.mem_map_of_mem (Assoc.mem_of_get at_key), rfl, hex⟩
  have all : sorted.take limit = sorted := by
    refine List.take_of_length_le ?_
    rw [List.length_mergeSort, List.length_map]
    exact (h.few project).trans enough
  have inside : digest_value ∈ sorted.take limit := by
    rw [all]
    exact List.mem_mergeSort.mpr (List.mem_map_of_mem listed_key)
  obtain ⟨result, member, done⟩ := mapM_mem mapped inside
  rw [opened_some at_key] at done
  obtain rfl := Except.ok.inj (loads.symm.trans done)
  exact ⟨request, member, get_request name hex at_key loads⟩

theorem Holds.revocable (h : Holds readers effects store) (name : isValidProjectName project = true) {now : UInt64}
    {euid : UInt32} (approved : latest (decisionsOf (project, digest_value) effects) package = some (ascii "approve")) :
    ∃ after, (decideCiDependency readers project digest_value package (ascii "revoke") now euid).exec store
      = (.ok (), after) := by
  have decided := latest_mem approved
  obtain ⟨directory, found⟩ := h.known _ (List.ne_nil_of_mem decided)
  obtain ⟨request, stored, decisions, _⟩ := h.stored _ directory found
  have few : request.history.length < kMaximumDecisions := by
    rcases h.room (project, digest_value) with room | free
    · rwa [← decisions, CiDependencyRequest.decisions, List.length_map] at room
    · exact absurd approved (free package)
  have named : package ∈ request.lock.packages.map (·.name) := by
    rw [← decisions] at decided
    obtain ⟨event, member, same⟩ := List.mem_map.mp decided
    obtain ⟨i, here⟩ := List.mem_iff_getElem?.mp member
    obtain rfl := (Prod.mk.inj same).1
    exact (stored.numbered i event here).2.1
  obtain ⟨_, _, parsed⟩ := stored.lock
  have digest : request.lock.sha256 = digest_value := stored.digest
  have takes : Takes readers store project digest_value package (ascii "revoke") :=
    ⟨name, digest ▸ digest_hex parsed, by decide, directory, request, found, stored.load, named, few⟩
  have spec := Prog.wp_exec (@decide_spec readers effects store project digest_value package (ascii "revoke") now euid h)
  cases run : (decideCiDependency readers project digest_value package (ascii "revoke") now euid).exec store with
  | mk result after =>
    rw [run] at spec
    cases result with
    | ok _ => exact ⟨after, rfl⟩
    | error _ => exact absurd takes spec.2

theorem Holds.sound (h : Holds readers effects store) : Sound readers effects store where
  admission _ _ _ _ _ := h.admission
  kept project digest_value bytes name known := by
    obtain ⟨directory, request, found, loads, parsed, digest, decisions, commits⟩ := h.request known
    exact ⟨request, get_request name (digest ▸ digest_hex parsed) found loads, parsed, decisions, commits⟩
  absent project digest_value name hex free := by
    have nothing : requestAt store (project, digest_value) = none := by
      cases found : requestAt store (project, digest_value) with
      | none => rfl
      | some directory =>
        obtain ⟨_, _, _, _, bytes, _, known⟩ := h.stored _ directory found
        exact absurd known (free bytes)
    unfold getCiDependencyRequest
    rw [bind_ok]
    refine ⟨(), failIf_ok.mpr (not_not.mpr name), bind_ok.mpr ⟨(), failIf_ok.mpr (not_not.mpr hex), ?_⟩⟩
    rw [nothing]
    rfl
  listed _ limit name := h.lists name limit
  revocable _ _ _ _ _ name approved := h.revocable name approved

theorem empty_holds : Holds readers [] [] where
  once := List.nodup_nil
  few _ := Nat.zero_le _
  there _ _ known := absurd known.choose_spec List.not_mem_nil
  known _ decided := absurd rfl decided
  stored _ _ found := by cases found
  room _ := .inl (Nat.zero_lt_succ 4095)

theorem step_holds (h : Holds readers effects store) (explained : Explains readers history effects)
    (step : Step readers call outcome store after) (met : Meets readers store call outcome after) :
    ∃ effects', Explains readers (history ++ [(call, outcome)]) effects' ∧ Holds readers effects' after := by
  cases call with
  | register project bytes commit =>
    have program : (Call.program readers (.register project bytes commit)).wp
        (fun after => Uncut readers store project bytes after →
          ∃ more, Shown readers project bytes commit more ∧ Holds readers (effects ++ more) after)
        (fun _ after => ∃ lock, parseCiDependencyLock readers bytes = .ok lock
          ∧ Holds readers (effects ++ [.registered (project, lock.sha256) bytes commit]) after)
        (fun _ after => Holds readers effects after) store := by
      rw [Call.program, Prog.wp_bind]
      exact register_spec h fun lock parsed absent => met.few project bytes commit lock rfl parsed absent
    cases step with
    | returned run =>
      have result := Prog.wp_exec program
      rw [run] at result
      obtain ⟨lock, parsed, holds⟩ := result
      exact ⟨_, .returned explained (.register parsed), holds⟩
    | threw run =>
      have result := Prog.wp_exec program
      rw [run] at result
      exact ⟨effects, .threw explained, result⟩
    | cut shown =>
      rcases shown with rfl | crashed
      · exact ⟨effects, .lost explained, h⟩
      · obtain ⟨more, either, holds⟩ := Prog.wp_crashes program after crashed (met.whole project bytes commit rfl rfl)
        rcases either with rfl | ⟨lock, parsed, rfl | rfl⟩
        · exact ⟨effects, .lost explained, List.append_nil effects ▸ holds⟩
        · exact ⟨_, .locked explained parsed, holds⟩
        · exact ⟨_, .kept explained (.register parsed), holds⟩
  | decide project digest_value package action now euid =>
    have program := @decide_spec readers effects store project digest_value package action now euid h
    have room := met.room project digest_value package action now euid rfl
    cases step with
    | returned run =>
      have result := Prog.wp_exec program
      rw [show (decideCiDependency readers project digest_value package action now euid).exec store = _ from run] at result
      exact ⟨_, .returned explained .decide, result room⟩
    | threw run =>
      have result := Prog.wp_exec program
      rw [show (decideCiDependency readers project digest_value package action now euid).exec store = _ from run] at result
      exact ⟨effects, .threw explained, result.1.symm ▸ h⟩
    | cut shown =>
      rcases shown with rfl | crashed
      · exact ⟨effects, .lost explained, h⟩
      · exact ⟨_, .kept explained .decide, Prog.wp_crashes program after crashed room⟩

theorem run_holds (run : Run readers (Meets readers) history store) :
    ∃ effects, Explains readers history effects ∧ Holds readers effects store := by
  induction run with
  | start => exact ⟨[], .nil, empty_holds⟩
  | step _ step met ih =>
    obtain ⟨effects, explained, holds⟩ := ih
    exact step_holds holds explained step met

/-- In every store that such a run reaches, admission follows the decisions so far and nothing
acknowledged is lost or unreadable. -/
theorem approvals_sound (run : Run readers (Meets readers) history store) :
    ∃ effects, Explains readers history effects ∧ Sound readers effects store := by
  obtain ⟨effects, explained, holds⟩ := run_holds run
  exact ⟨effects, explained, holds.sound⟩

end

def changed : Bytes := lockText ++ ascii "# changed\n"

def lockDigest : Bytes := ascii "c44ee6962a3abc97c6735898f22a20fe0e1d7fa730b1fa9890827e202b2e9374"

def changedDigest : Bytes := ascii "662f5c02f79e57cc5609318312c315a52938a8578ebd6facc27c929f35b2d374"

/-- What the project's readers give for the two locks, in a table: computing SHA-256 of a whole lock is
slow in the kernel. -/
def lockReaders : Readers where
  parseDocument content :=
    if content = lockText ∨ content = changed then .ok lockTree else malformed "expected a key: value entry" 1
  empty node parsed := by
    rw [if_neg (by decide)] at parsed
    cases parsed
  sha256Hex content := if content = changed then changedDigest else lockDigest
  hex content := by
    split
    · decide
    · decide

/-- The table is right about the first lock. -/
private theorem lockReaders_project : lockReaders.parseDocument lockText = projectReaders.parseDocument lockText := by
  have listed : lockReaders.parseDocument lockText = .ok lockTree := by simp only [lockReaders, true_or, if_true]
  rw [listed, lock_read]

def head : Bytes := ascii "0123456789012345678901234567890123456789"

/-- The lock is registered, without a decision. -/
def lockedStore : Store :=
  [((ascii "p", lockDigest), { lock := some lockText, commits := some (head ++ [newline]) })]

def approvedStore : Store :=
  [((ascii "p", lockDigest),
    { lock := some lockText, journal := some (journalRow 1 7 8 (ascii "lib") (ascii "approve") ++ [newline])
      commits := some (head ++ [newline]) })]

/-- A second lock has its directory and no more. -/
def halfStore : Store := makeDirectory (ascii "p", changedDigest) lockedStore

def registerLock : Call := .register (ascii "p") lockText head

def approveLock : Call := .decide (ascii "p") lockDigest (ascii "lib") (ascii "approve") 7 8

def registerChanged : Call := .register (ascii "p") changed head

private theorem lock_table : isValidProjectName (ascii "p")
      ∧ (((registerLock.program lockReaders).exec []).1.isOk ∧ ((registerLock.program lockReaders).exec []).2 = lockedStore)
      ∧ (((approveLock.program lockReaders).exec lockedStore).1.isOk
        ∧ ((approveLock.program lockReaders).exec lockedStore).2 = approvedStore)
      ∧ halfStore ∈ (registerChanged.program lockReaders).crashes lockedStore
      ∧ ((do load lockReaders (← opened lockedStore (ascii "p", lockDigest)) lockDigest).toOption.map
        CiDependencyRequest.history) = some []
      ∧ ((ascii "p", changedDigest) ∈ halfStore.map (·.1) ∧ ascii "p" = ascii "p" ∧ isValidSha256Hex changedDigest)
      ∧ requestAt halfStore (ascii "p", changedDigest) = some {} := by
  decide +kernel

theorem Step.of_exec {readers : Readers} {call : Call} {store after : Store}
    (run : ((call.program readers).exec store).1.isOk ∧ ((call.program readers).exec store).2 = after) :
    Step readers call .returned store after := by
  obtain ⟨ok, rfl⟩ := run
  refine .returned (Prod.ext ?_ rfl)
  cases result : ((call.program readers).exec store).1 with
  | ok _ => rfl
  | error _ =>
    rw [result] at ok
    cases ok

private theorem registered_step : Step lockReaders registerLock .returned [] lockedStore := .of_exec lock_table.2.1

private theorem approve_leaves_room :
    LeavesRoom lockReaders lockedStore (ascii "p") lockDigest (ascii "lib") (ascii "approve") := by
  intro directory request found loads
  have empty := lock_table.2.2.2.2.1
  rw [opened_some found] at empty
  have undecided : request.history = [] := by
    rw [show (do load lockReaders (← Except.ok directory) lockDigest) = Except.ok request from loads] at empty
    exact Option.some.inj empty
  rw [undecided]
  exact .inl (by decide)

private theorem approved_run : Run lockReaders (Meets lockReaders) [(registerLock, .returned), (approveLock, .returned)]
    approvedStore := by
  refine .step (.step .start registered_step ⟨nofun, fun _ _ _ _ _ _ _ => ?_, nofun⟩)
    (.of_exec lock_table.2.2.1) ⟨nofun, nofun, fun _ _ _ _ _ _ same => ?_⟩
  · exact Nat.zero_lt_succ 1023
  · cases same
    exact approve_leaves_room

theorem approvals_sound_lock : lockReaders.parseDocument lockText = projectReaders.parseDocument lockText
    ∧ ∃ effects, Explains lockReaders [(registerLock, .returned), (approveLock, .returned)] effects
      ∧ Sound lockReaders effects approvedStore :=
  ⟨lockReaders_project, approvals_sound approved_run⟩

/-- A registration that is cut off before the lock hides every request of the project. -/
theorem not_approvals_sound : ¬ ∀ history store, Run lockReaders (fun _ _ _ _ => True) history store →
    ∃ effects, Explains lockReaders history effects ∧ Sound lockReaders effects store := by
  intro law
  have first : Run lockReaders (fun _ _ _ _ => True) [(registerLock, .returned)] lockedStore :=
    .step .start registered_step trivial
  have run := first.step (.cut (.inr lock_table.2.2.2.1)) trivial
  obtain ⟨effects, _, sound⟩ := law _ _ run
  obtain ⟨requests, _, lists, _⟩ := sound.listed (ascii "p") kMaximumRequests lock_table.1
  unfold listCiDependencyRequests names at lists
  simp only [bind_ok, pure_ok] at lists
  obtain ⟨_, _, sorted, ⟨_, few, rfl⟩, _, mapped, _⟩ := lists
  obtain ⟨request, _, loads⟩ := mapM_mem mapped (by
    rw [List.take_of_length_le (by
      rw [List.length_mergeSort]
      exact Nat.not_lt.mp (failIf_ok.mp few))]
    exact List.mem_mergeSort.mpr (List.mem_map_of_mem (mem_listed.mpr lock_table.2.2.2.2.2.1)))
  rw [opened_some lock_table.2.2.2.2.2.2] at loads
  cases loads

end CkGit.Dependencies
