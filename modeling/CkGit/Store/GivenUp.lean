import CkGit.Store.Attempts

/-!
When the reaper gives a job up. The history of a job counts the claims of it that
lapsed; where abandonCiJob puts none of its claims back, a job is given up only
after as many lapses as the reaper allows attempts. A claim handed back adds to
the same counter (requeueJob), so one hand-back costs an attempt.
-/
namespace CkGit.Store
open CkGit.Base CkGit.Ci Prog

variable (id : Bytes)

/-- What begins or ends a claim; `reap` is reapCiLeases at one name of working/. -/
inductive Turn where
  | claim (name runner : Bytes) (lease_seconds : UInt64)
  | abandon (job_id token runner : Bytes)
  | reap (options : CiReapOptions) (name : Bytes)

/-- The job given up, and how many of its claims had lapsed by then. -/
structure GivenUp where
  max_attempts : UInt32
  lapses : Nat
  deriving DecidableEq

structure History where
  files : Files
  lapses : Nat := 0
  given_up : List GivenUp := []

/-- What the reaper reports of the job; a name without a readable job is no lapse. -/
def History.note (h : History) (options : CiReapOptions) (reaped : Except String Reaped) : History :=
  match reaped with
  | .ok (.lapsed job_id outcome) =>
    if job_id ≠ id then h
    else match outcome with
    | .requeued => { h with lapses := h.lapses + 1 }
    | .cancelled => { h with lapses := h.lapses + 1 }
    | .failed =>
      { h with
        lapses := h.lapses + 1
        given_up := h.given_up ++ [{ max_attempts := options.limit, lapses := h.lapses + 1 }] }
    | .gone => h
  | _ => h

def History.turn (h : History) (host : Host) (turn : Turn) : History :=
  match turn with
  | .claim name runner lease_seconds =>
    { h with files := ((takeJob host runner lease_seconds name).exec h.files).2 }
  | .abandon job_id token runner =>
    { h with files := ((abandonCiJob host job_id token runner).exec h.files).2 }
  | .reap options name =>
    let (reaped, files) := (reapEntry host options name).exec h.files
    { h with files }.note id options reaped

def History.run (h : History) (turns : List (Host × Turn)) : History :=
  turns.foldl (fun h (host, turn) => h.turn id host turn) h

/-- The job is given up only after as many lapses as the limit. -/
def History.Earned (h : History) : Prop := ∀ ending ∈ h.given_up, ending.max_attempts.toNat ≤ ending.lapses

/-- No turn of the history puts a claim of the job back. -/
def KeepsClaims (h : History) (turns : List (Host × Turn)) : Prop :=
  match turns with
  | [] => True
  | (host, turn) :: rest =>
    (match turn with
      | .abandon job_id token _ => job_id = id → ¬ handsBack h.files job_id token
      | _ => True)
    ∧ KeepsClaims (h.turn id host turn) rest

/-- The attempt in the job's file is at most one past its lapses. -/
structure Counted (h : History) : Prop where
  within : Within id (h.lapses + 1) h.files
  earned : h.Earned

variable {id}

theorem Counted.note {h : History} {options : CiReapOptions} {files : Files} {reaped : Except String Reaped}
    (counted : Counted id h)
    (left : match reaped with
      | .ok (.lapsed job_id outcome) =>
        if job_id = id then Requeued id (h.lapses + 1) options.limit outcome files
        else Within id (h.lapses + 1) files
      | _ => Within id (h.lapses + 1) files) :
    Counted id ({ h with files }.note id options reaped) := by
  have stays : ∀ {more : Nat}, Within id more files → more = h.lapses + 1 → Counted id { h with files } :=
    fun within same => ⟨same ▸ within, counted.earned⟩
  cases reaped with
  | error message => exact stays left rfl
  | ok reaped =>
    cases reaped with
    | ignored => exact stays left rfl
    | live expires => exact stays left rfl
    | lapsed job_id outcome =>
      simp only [History.note]
      by_cases same : job_id = id
      · rw [if_neg (not_not.mpr same)]
        simp only [if_pos same] at left
        cases outcome with
        | requeued => exact ⟨left, counted.earned⟩
        | cancelled => exact ⟨left.mono (Nat.le_succ _), counted.earned⟩
        | gone => exact stays left rfl
        | failed =>
          refine ⟨left.2.mono (Nat.le_succ _), ?_⟩
          intro ending member
          rcases List.mem_append.mp member with earlier | now
          · exact counted.earned ending earlier
          · rw [List.mem_singleton.mp now]
            exact left.1
      · rw [if_pos same]
        simp only [if_neg same] at left
        exact stays left rfl

theorem Counted.turn {h : History} {host : Host} {turn : Turn} (counted : Counted id h)
    (kept : KeepsClaims id h [(host, turn)]) : Counted id (h.turn id host turn) := by
  cases turn with
  | claim name runner lease_seconds =>
    have left : Within id (h.lapses + 1) _ :=
      Keeps.exec (fun t => (takeJob_moves host runner lease_seconds name).within) counted.within
    exact ⟨left, counted.earned⟩
  | abandon job_id token runner =>
    have left := wp_exec (@abandonCiJob_within host id h.files _ job_id token runner counted.within kept.1)
    refine ⟨?_, counted.earned⟩
    revert left
    simp only [History.turn]
    cases (abandonCiJob host job_id token runner).exec h.files with
    | mk outcome files => cases outcome <;> exact fun left => left
  | reap options name =>
    have left := wp_exec (@reapEntry_within host id h.files _ options name counted.within)
    simp only [History.turn]
    revert left
    cases (reapEntry host options name).exec h.files with
    | mk reaped files =>
      intro left
      apply counted.note
      cases reaped with
      | error message => exact left
      | ok reaped => cases reaped <;> exact left

theorem Counted.run {h : History} {turns : List (Host × Turn)} (counted : Counted id h)
    (kept : KeepsClaims id h turns) : Counted id (h.run id turns) := by
  induction turns generalizing h with
  | nil => exact counted
  | cons next rest ih => exact ih (counted.turn ⟨kept.1, trivial⟩) kept.2

/-- From a job not past its first attempt: where no claim is handed back, it is
given up only when as many of its claims have lapsed as the limit allows. -/
theorem given_up_earned (id : Bytes) (s : Files) (turns : List (Host × Turn)) (first : Within id 1 s)
    (kept : KeepsClaims id { files := s } turns) : (History.run id { files := s } turns).Earned := by
  have start : Counted id { files := s } := ⟨first, fun _ member => absurd member List.not_mem_nil⟩
  exact (start.run kept).earned

/-- A workflow of one job. -/
def firstWorkflow : WorkflowGroup where
  parent := { firstJob with job_id := ascii "0" }
  children := [{ firstJob with parent_run_id := ascii "0", workflow_job := ascii "build" }]

/-- The job after its enqueueCiJob. -/
def firstFiles : Files := ((enqueueCiJob firstHost firstJob).exec ∅).2

def claimFirst : Turn := .claim (ini (ascii "1")) (ascii "r") 60

def lapseFirst (max_attempts : UInt32) : Turn :=
  .reap { now_epoch_seconds := 1000, max_attempts } (ini (ascii "1"))

private theorem first_queued : Within (ascii "1") 1 firstFiles := by
  refine @enqueueCiJob_within firstHost ∅ firstJob rfl ?_
  intro directory _ job read
  obtain ⟨file, held, _⟩ := Files.readAs_some.mp read
  cases held

/-- Two claims, both lapsed, with two attempts allowed. -/
def lapsedTwice : List (Host × Turn) :=
  [(firstHost, claimFirst), (firstHost, lapseFirst 2), (firstHost, claimFirst), (firstHost, lapseFirst 2)]

theorem given_up_earned_twice :
    (History.run (ascii "1") { files := firstFiles } lapsedTwice).given_up = [⟨2, 2⟩]
      ∧ (History.run (ascii "1") { files := firstFiles } lapsedTwice).Earned :=
  ⟨by decide +kernel,
    given_up_earned _ _ _ first_queued ⟨trivial, trivial, trivial, trivial, trivial⟩⟩

/-- A claim handed back counts: with two attempts allowed, one hand-back and one
lapse give the job up. -/
theorem not_given_up_earned_handed_back :
    ¬ ∀ (id : Bytes) (s : Files) (turns : List (Host × Turn)), Within id 1 s →
      (History.run id { files := s } turns).Earned := by
  intro all
  have earned := all (ascii "1") firstFiles
    [(firstHost, claimFirst), (firstHost, .abandon (ascii "1") firstHost.token (ascii "r")),
      (firstHost, claimFirst), (firstHost, lapseFirst 2)] first_queued
  have given : (History.run (ascii "1") { files := firstFiles }
      [(firstHost, claimFirst), (firstHost, .abandon (ascii "1") firstHost.token (ascii "r")),
        (firstHost, claimFirst), (firstHost, lapseFirst 2)]).given_up = [⟨2, 1⟩] := by
    decide +kernel
  have enough := earned ⟨2, 1⟩ (by rw [given]; exact List.mem_singleton_self _)
  exact absurd enough (by decide)

/-- reapCiLeases is such turns, one for each name it reaches. -/
theorem reap_turns (host : Host) (options : CiReapOptions) (h : History) :
    ∃ names : List Bytes, ((reapCiLeases host options).exec h.files).2
      = (h.run id (names.map fun name => (host, Turn.reap options name))).files := by
  have loop : ∀ (names : List Bytes) (held : CiReapResult) (h : History), ∃ reached : List Bytes,
      ((accumulate names held fun result name => do
          let reaped ← reapEntry host options name
          return result.note reaped).exec h.files).2
        = (h.run id (reached.map fun name => (host, Turn.reap options name))).files := by
    intro names
    induction names with
    | nil => exact fun _ h => ⟨[], rfl⟩
    | cons name rest ih =>
      intro held h
      simp only [accumulate, exec_bind]
      cases entry : (reapEntry host options name).exec h.files with
      | mk reaped files =>
        have after : (h.turn id host (.reap options name)).files = files := by
          simp only [History.turn, entry, History.note]
          split
          · split
            · rfl
            · split <;> rfl
          · rfl
        cases reaped with
        | error message => exact ⟨[name], after.symm⟩
        | ok reaped =>
          obtain ⟨reached, same⟩ := ih (held.note reaped) (h.turn id host (.reap options name))
          rw [after] at same
          exact ⟨name :: reached, same⟩
  exact loop _ _ h

end CkGit.Store
