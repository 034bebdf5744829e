import CkGit.Dependencies.Effects

/-!
Registrations and decisions over a store that records the effects so far, with a
crash between any two writes.
-/
namespace CkGit.Dependencies
open CkGit.Base CkGit.Ci

/-- A check of the request: refused, or nothing happened and its opposite holds. -/
theorem wp_failIf {α : Type} {bad : Prop} [Decidable bad] {message : String}
    {rest : Unit → Prog Store DependencyError α} {crash : Store → Prop} {returned : α → Store → Prop}
    {threw : DependencyError → Store → Prop} {store : Store} (refused : ∀ error, bad → threw error store)
    (passed : ¬bad → (rest ()).wp crash returned threw store) :
    (Prog.ofExcept (failIf bad message) >>= rest).wp crash returned threw store := by
  rw [Prog.wp_bind]
  refine Prog.wp_ofExcept (fun _ ok => passed (failIf_ok.mp ok)) fun error failed => refused error ?_
  by_contra good
  rw [failIf, rejectIf, if_neg good] at failed
  cases failed

section
variable {readers : Readers} {effects : List Effect} {store : Store} {key : Key}
  {project bytes commit digest_value package action : Bytes} {directory : RequestDirectory} {lock : CiDependencyLock}
  {request : CiDependencyRequest}

theorem opened_some (found : requestAt store key = some directory) : opened store key = .ok directory := by
  rw [opened, found]

theorem loaded {record : CiDependencyRequest} (found : requestAt store key = some directory) :
    (do load readers (← opened store key) key.2) = .ok record ↔ load readers directory key.2 = .ok record := by
  rw [opened_some found]
  rfl

/-- The commit is added, or it was there; only a full list refuses it. -/
theorem registerCommit_spec (h : Holds readers effects store) (found : requestAt store key = some directory)
    (text : directory.lock = some bytes) (known : Registered key bytes effects)
    (valid : commit = [] ∨ isValidObjectId commit = true) :
    (registerCommit readers key commit).wp
      (Holds readers (effects ++ [.registered key bytes commit]))
      (fun _ => Holds readers (effects ++ [.registered key bytes commit]))
      (fun _ after => after = store ∧ kMaximumCommits ≤ (commitsOf key effects).length) store := by
  obtain ⟨request, stored, _, kept, _⟩ := h.stored key directory found
  unfold registerCommit
  rw [Prog.wp_bind]
  refine Prog.wp_reads (fun record read => ?_) (fun error failed => ?_)
  · rw [loaded found, stored.load] at read
    cases read
    refine Prog.wp_whenever (fun needed => ?_) (fun nothing => ?_)
    · refine wp_failIf (fun _ full => ⟨rfl, kept ▸ full⟩) fun room => ?_
      rw [Prog.wp_bind]
      rw [Nat.not_le, kept] at room
      have fresh : commit ∉ commitsOf key effects := kept ▸ needed.2
      have after := h.committed found text (valid.resolve_left needed.1) needed.1 fresh room
      refine Prog.wp_reads (fun commits old => ?_) (fun error failed => ?_)
      · rw [opened_some found] at old
        have same : commits = directory.commits.getD [] :=
          Except.ok.inj (old.symm.trans (readOptional_ok stored.commits_fit))
        subst same
        exact ⟨after, after⟩
      · rw [opened_some found] at failed
        cases failed.symm.trans (readOptional_ok stored.commits_fit)
    · refine h.repeated known ?_
      rw [← kept]
      by_cases empty : commit = []
      · exact .inl empty
      · exact .inr (by_contra fun fresh => nothing ⟨empty, fresh⟩)
  · rw [opened_some found] at failed
    cases failed.symm.trans stored.load

/-- What a registration may have reached. -/
def Shown (readers : Readers) (project bytes commit : Bytes) (more : List Effect) : Prop :=
  more = [] ∨ ∃ lock, parseCiDependencyLock readers bytes = .ok lock
    ∧ (more = [.registered (project, lock.sha256) bytes []] ∨ more = [.registered (project, lock.sha256) bytes commit])

/-- The registration is not cut off between the directory of a new request and its lock. -/
def Uncut (readers : Readers) (store : Store) (project bytes : Bytes) (after : Store) : Prop :=
  ∀ lock, parseCiDependencyLock readers bytes = .ok lock → requestAt store (project, lock.sha256) = none →
    after ≠ makeDirectory (project, lock.sha256) store

/-- A registration shown in two writes is the one registration. -/
theorem Holds.registered_once {after : Store} (uncommitted : commitsOf key effects = [])
    (twice : Holds readers (effects ++ [.registered key bytes []] ++ [.registered key bytes commit]) after) :
    Holds readers (effects ++ [.registered key bytes commit]) after := by
  refine twice.congr (fun other => ?_) (fun other => ?_) fun other text => ?_
  · rw [decisionsOf_registered, decisionsOf_registered, decisionsOf_registered]
  · simp only [commitsOf_registered]
    split
    · rename_i same
      rw [← same, uncommitted]
      rfl
    · rfl
  · simp only [registered_registered]
    exact ⟨fun either => either.elim (fun before => .inl (.inl before)) .inr,
      fun either => either.elim (fun first => first.elim .inl .inr) .inr⟩

theorem Stored.lock_bounds (stored : Stored readers digest_value request directory) (own : directory.lock = some bytes) :
    bytes ≠ [] ∧ bytes.length ≤ kMaximumLockBytes := by
  obtain ⟨text, there, parsed⟩ := stored.lock
  obtain rfl := Option.some.inj (own.symm.trans there)
  exact ⟨(parseCiDependencyLock_ok parsed).1, (parseCiDependencyLock_ok parsed).2.1⟩

theorem register_spec (h : Holds readers effects store)
    (few : ∀ lock, parseCiDependencyLock readers bytes = .ok lock → requestAt store (project, lock.sha256) = none →
      requestCount store project < kMaximumRequests) :
    (registerCiDependencyRequest readers project bytes commit).wp
      (fun after => Uncut readers store project bytes after →
        ∃ more, Shown readers project bytes commit more ∧ Holds readers (effects ++ more) after)
      (fun _ after => ∃ lock, parseCiDependencyLock readers bytes = .ok lock
        ∧ Holds readers (effects ++ [.registered (project, lock.sha256) bytes commit]) after)
      (fun _ after => Holds readers effects after) store := by
  unfold registerCiDependencyRequest
  refine wp_failIf (fun _ _ => h) fun _ => ?_
  refine wp_failIf (fun _ _ => h) fun form => ?_
  have valid : commit = [] ∨ isValidObjectId commit = true := by
    by_cases empty : commit = []
    · exact .inl empty
    · exact .inr (by_contra fun bad => form ⟨empty, bad⟩)
  rw [Prog.wp_bind]
  refine Prog.wp_ofExcept (fun lock parsed => ?_) (fun _ _ => h)
  have filled := (parseCiDependencyLock_ok parsed).1
  have fits := (parseCiDependencyLock_ok parsed).2.1
  rw [Prog.wp_bind, Prog.wp_modify, Prog.wp_bind]
  cases found : requestAt store (project, lock.sha256) with
  | none =>
    have fresh : requestAt (makeDirectory (project, lock.sha256) store) (project, lock.sha256) = some {} := by
      rw [get_makeDirectory found, if_pos rfl]
    have locked := h.locked found parsed rfl (few lock parsed found)
    have there : requestAt (edit (project, lock.sha256) (fun request => { request with lock := some bytes })
        (makeDirectory (project, lock.sha256) store)) (project, lock.sha256) = some { lock := some bytes } := by
      rw [get_edit fresh, if_pos rfl]
    have uncommitted : commitsOf (project, lock.sha256) effects = [] := commitsOf_unregistered fun text known => by
      obtain ⟨directory, other, _⟩ := h.there _ text known
      rw [found] at other
      cases other
    refine ⟨fun uncut => absurd rfl (uncut lock parsed found), Prog.wp_reads (fun old read => ?_) (fun error failed => ?_)⟩
    · rw [opened_some fresh] at read
      cases read
      refine wp_failIf (fun _ different => absurd rfl different.1) fun _ => ?_
      rw [Prog.wp_bind]
      refine Prog.wp_whenever (fun _ => ⟨fun _ => ⟨_, .inr ⟨lock, parsed, .inl rfl⟩, locked⟩, ?_⟩)
        (fun skipped => absurd rfl skipped)
      rw [Prog.wp_done, Prog.wp_bind]
      refine Prog.wp_mono (registerCommit_spec locked there rfl (registered_registered.mpr (.inr ⟨rfl, rfl⟩)) valid)
        (fun after done _ => ⟨_, .inr ⟨lock, parsed, .inr rfl⟩, done.registered_once uncommitted⟩)
        (fun _ after done => ⟨lock, parsed, done.registered_once uncommitted⟩) ?_
      rintro _ _ ⟨_, full⟩
      rw [commitsOf_registered, if_pos rfl, uncommitted] at full
      exact absurd full (by decide)
    · rw [opened_some fresh] at failed
      cases failed
  | some directory =>
    rw [makeDirectory_present found]
    obtain ⟨request, stored, _, _, text, own, known⟩ := h.stored _ directory found
    obtain ⟨text_filled, length⟩ := stored.lock_bounds own
    have unchanged : ∃ more, Shown readers project bytes commit more ∧ Holds readers (effects ++ more) store :=
      ⟨[], .inl rfl, (List.append_nil effects).symm ▸ h⟩
    have reread : (do readOptional (← opened store (project, lock.sha256)).lock kMaximumLockBytes) = .ok text := by
      rw [opened_some found]
      show readOptional directory.lock kMaximumLockBytes = .ok text
      rw [readOptional_ok (own ▸ length), own]
      rfl
    refine ⟨fun _ => unchanged, Prog.wp_reads (fun old read => ?_) (fun error failed => ?_)⟩
    · obtain rfl := Except.ok.inj (read.symm.trans reread)
      refine wp_failIf (fun _ _ => h) fun same => ?_
      have identical : old = bytes := by_contra fun different => same ⟨text_filled, different⟩
      subst identical
      rw [Prog.wp_bind]
      refine Prog.wp_whenever (fun empty => absurd empty text_filled) (fun _ => ?_)
      rw [Prog.wp_bind]
      refine Prog.wp_mono (registerCommit_spec h found own known valid)
        (fun after done _ => ⟨_, .inr ⟨lock, parsed, .inr rfl⟩, done⟩) (fun _ after done => ⟨lock, parsed, done⟩) ?_
      rintro _ _ ⟨rfl, _⟩
      exact h
    · cases failed.symm.trans reread

/-- The request takes one more decision on the package. -/
structure Takes (readers : Readers) (store : Store) (project digest_value package action : Bytes) : Prop where
  named : isValidProjectName project = true
  hex : isValidSha256Hex digest_value = true
  known : action ∈ actions
  request : ∃ directory request, requestAt store (project, digest_value) = some directory
    ∧ load readers directory digest_value = .ok request ∧ package ∈ request.lock.packages.map (·.name)
    ∧ request.history.length < kMaximumDecisions

/-- After the decision the journal has room, or approves nothing. -/
def LeavesRoom (readers : Readers) (store : Store) (project digest_value package action : Bytes) : Prop :=
  ∀ directory request, requestAt store (project, digest_value) = some directory →
    load readers directory digest_value = .ok request →
    request.history.length + 1 < kMaximumDecisions
      ∨ ∀ other, latest (request.decisions ++ [(package, action)]) other ≠ some (ascii "approve")

theorem decide_spec {now : UInt64} {euid : UInt32} (h : Holds readers effects store) :
    (decideCiDependency readers project digest_value package action now euid).wp
      (fun after => LeavesRoom readers store project digest_value package action →
        Holds readers (effects ++ [.decided (project, digest_value) package action]) after)
      (fun _ after => LeavesRoom readers store project digest_value package action →
        Holds readers (effects ++ [.decided (project, digest_value) package action]) after)
      (fun _ after => after = store ∧ ¬ Takes readers store project digest_value package action) store := by
  unfold decideCiDependency
  refine wp_failIf (fun _ unnamed => ⟨rfl, fun takes => unnamed takes.named⟩) fun name => ?_
  refine wp_failIf (fun _ bad => ⟨rfl, fun takes => bad.elim (· takes.hex) (· takes.known)⟩) fun form => ?_
  rw [not_or, not_not, not_not] at form
  rw [Prog.wp_bind]
  cases found : requestAt store (project, digest_value) with
  | none =>
    refine Prog.wp_reads (fun record read => ?_) (fun _ _ => ⟨rfl, fun takes => ?_⟩)
    · rw [opened, found] at read
      cases read
    · obtain ⟨directory, _, there, _⟩ := takes.request
      rw [found] at there
      cases there
  | some directory =>
    obtain ⟨request, stored, _⟩ := h.stored _ directory found
    refine Prog.wp_reads (fun record read => ?_) (fun error failed => ?_)
    · rw [opened_some found] at read
      obtain rfl := Except.ok.inj (read.symm.trans stored.load)
      have only : ∀ {other}, Takes readers store project digest_value package action → other = record →
          package ∈ other.lock.packages.map (·.name) ∧ other.history.length < kMaximumDecisions := by
        rintro _ takes rfl
        obtain ⟨directory', request', there, loads, listed, few⟩ := takes.request
        rw [found] at there
        cases there
        obtain rfl := Except.ok.inj (loads.symm.trans stored.load)
        exact ⟨listed, few⟩
      refine wp_failIf (fun _ unlisted => ⟨rfl, fun takes => unlisted (only takes rfl).1⟩) fun listed => ?_
      rw [not_not] at listed
      refine wp_failIf (fun _ full => ⟨rfl, fun takes => absurd full (Nat.not_le.mpr (only takes rfl).2)⟩) fun few => ?_
      rw [Nat.not_le] at few
      have many : kMaximumDecisions = 4096 := rfl
      let decision : CiDependencyDecision :=
        { sequence := (record.history.length + 1).toUInt64, epoch := now, effective_uid := euid.toUInt64, package, action }
      have sequence : decision.sequence.toNat = record.history.length + 1 :=
        UInt64.toNat_ofNat_of_lt' (Nat.lt_of_le_of_lt (Nat.succ_le_of_lt few) (by decide))
      have row : journalRow (record.history.length + 1) now.toNat euid.toNat package action = rowOf decision := by
        rw [rowOf, sequence]
        rfl
      have numbered : Numbered record.lock (record.history ++ [decision]) :=
        stored.numbered.append sequence listed form.2
      have fits : ((directory.journal.getD []) ++ (rowOf decision ++ [newline])).length ≤ kMaximumJournalBytes := by
        have whole := journal_length stored.safe numbered (by
          rw [List.length_append, List.length_singleton]
          exact few)
        rw [stored.journal]
        simpa using whole
      have after := fun room : LeavesRoom readers store project digest_value package action =>
        h.decided found stored sequence listed form.2 few (room directory record found stored.load)
      rw [Prog.wp_bind]
      refine Prog.wp_reads (fun old reread => ?_) (fun error failed => ?_)
      · rw [opened_some found] at reread
        obtain rfl : old = directory.journal.getD [] :=
          Except.ok.inj (reread.symm.trans (readOptional_ok stored.journal_fits))
        rw [row]
        exact wp_failIf (fun _ long => absurd long (Nat.not_lt.mpr fits)) fun _ => ⟨after, after⟩
      · rw [opened_some found] at failed
        cases failed.symm.trans (readOptional_ok stored.journal_fits)
    · rw [opened_some found] at failed
      cases failed.symm.trans stored.load

end

end CkGit.Dependencies
