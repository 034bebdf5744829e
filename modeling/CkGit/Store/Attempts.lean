import CkGit.Store.Claims
import CkGit.Store.RoundTrip

/-!
How many attempts a job has used up. Each lapsed lease adds one to the attempt in
the job's file, and so does each claim handed back; the reaper compares the
attempt with its limit. Where no claim is handed back, a job is given up only
after so many of its claims have lapsed.
-/
namespace CkGit.Store
open CkGit.Base CkGit.Ci Prog

variable (host : Host) {id : Bytes} {s t u : Files}

/-- The directories a job waits and runs in. -/
def Queued (directory : Directory) : Prop := directory = .spool ∨ directory = .working

/-- Every file of the job in the second state was there in the first. -/
def Moved (id : Bytes) (s t : Files) : Prop :=
  ∀ directory, Queued directory → t.get (.queue directory (ini id)) = none
    ∨ ∃ before, Queued before ∧ t.get (.queue directory (ini id)) = s.get (.queue before (ini id))

theorem Moved.refl (s : Files) : Moved id s s := fun directory queued => .inr ⟨directory, queued, rfl⟩

theorem Moved.trans (first : Moved id s t) (second : Moved id t u) : Moved id s u := by
  intro directory queued
  rcases second directory queued with gone | ⟨before, was, same⟩
  · exact .inl gone
  · rcases first before was with absent | ⟨earlier, waited, origin⟩
    · exact .inl (same.trans absent)
    · exact .inr ⟨earlier, waited, same.trans origin⟩

theorem moved_of_same (same : ∀ directory, Queued directory →
    t.get (.queue directory (ini id)) = s.get (.queue directory (ini id))) : Moved id s t :=
  fun directory queued => .inr ⟨directory, queued, same directory queued⟩

theorem moved_remove (path : Path) : Moved id s (s.remove path) := by
  intro directory queued
  by_cases same : Path.queue directory (ini id) = path
  · rw [same]
    exact .inl Files.get_remove_self
  · exact .inr ⟨directory, queued, Files.get_remove_ne same⟩

theorem moved_put {path : Path} {file : File}
    (other : ∀ directory, Queued directory → Path.queue directory (ini id) ≠ path) : Moved id s (s.put path file) :=
  moved_of_same fun directory queued => Files.get_put_ne (other directory queued)

/-- A file set aside is no longer a job. -/
theorem rejected_ne (name : Bytes) : ini id ≠ name ++ ascii ".rejected" := by
  intro same
  have last := congrArg List.getLast? same
  rw [ini, List.getLast?_append, List.getLast?_append] at last
  have apart : 'i'.toUInt8 ≠ 'd'.toUInt8 := by decide
  exact absurd last (by simp [ascii, apart])

theorem moved_rename {source target : Path} (other : ∀ directory, Queued directory →
    Path.queue directory (ini id) = target → ∃ before, Queued before ∧ source = .queue before (ini id)) :
    Moved id s (s.rename source target) := by
  intro directory queued
  unfold Files.rename
  split
  · exact .inr ⟨directory, queued, rfl⟩
  · rename_i file held
    by_cases same : Path.queue directory (ini id) = target
    · obtain ⟨before, was, rfl⟩ := other directory queued same
      refine .inr ⟨before, was, ?_⟩
      rw [← same, Files.get_put_self, held]
    · rw [Files.get_put_ne same]
      exact moved_remove source directory queued

/-- No readable copy of the job is past this attempt. -/
def Within (id : Bytes) (attempts : Nat) (s : Files) : Prop :=
  ∀ directory, Queued directory → ∀ job, readJobAt s directory (ini id) = some job → job.attempt.toNat ≤ attempts

theorem Within.moved {attempts : Nat} (h : Within id attempts s) (moved : Moved id s t) : Within id attempts t := by
  intro directory queued job read
  rcases moved directory queued with gone | ⟨before, was, same⟩
  · have none : readJobAt t directory (ini id) = none := by
      simp [readJobAt, Files.readAs, Files.readCapped, gone]
    rw [none] at read
    cases read
  · refine h before was job ?_
    rw [← read, readJobAt, readJobAt, Files.readAs, Files.readAs, Files.readCapped, Files.readCapped, same]

theorem Within.mono {attempts more : Nat} (h : Within id attempts s) (le : attempts ≤ more) : Within id more s :=
  fun directory queued job read => (h directory queued job read).trans le

/-- No write of the program makes a new copy of the job. -/
def Moves {α : Type} (id : Bytes) (p : Op α) : Prop := ∀ s, Keeps (Moved id s) p

theorem writeFile_moves {path : Path} {bytes : Bytes}
    (other : ∀ directory, Queued directory → Path.queue directory (ini id) ≠ path) :
    Moves id (writeFile host path bytes) :=
  fun _ => Keeps.modify fun _ moved => moved.trans (moved_put other)

theorem run_other {project run_id : Bytes} {file : RunFile} (directory : Directory) :
    Queued directory → Path.queue directory (ini id) ≠ .run project run_id file := by
  intro _ same
  cases same

theorem unlink_moves (path : Path) : Moves id (unlink path) :=
  fun _ => Keeps.modify fun _ moved => moved.trans (moved_remove path)

theorem moved_aside (name : Bytes) :
    Moved id s (s.rename (.queue .working name) (.queue .working (name ++ ascii ".rejected"))) := by
  refine moved_rename ?_
  intro directory _ same
  injection same with _ named
  exact absurd named (rejected_ne name)

theorem ensureRunDir_moves (project_name run_id : Bytes) : Moves id (ensureRunDir host project_name run_id) :=
  fun s => (Keeps.gets _).bind fun _ => (writeFile_moves host run_other s).whenever

theorem prepareCiRunDirectory_moves (project_name run_id : Bytes) :
    Moves id (prepareCiRunDirectory host project_name run_id) :=
  fun s => (Keeps.ofExcept _).bind fun _ => (Keeps.ofExcept _).bind fun _ =>
    ensureRunDir_moves host project_name run_id s

theorem writeCiRunRecord_moves (record : CiRunRecord) : Moves id (writeCiRunRecord host record) :=
  fun s => (Keeps.ofExcept _).bind fun _ =>
    (ensureRunDir_moves host _ _ s).bind fun _ => writeFile_moves host run_other s

theorem cancelQueuedJob_moves (job : CiJobRequest) (detail : Bytes) (terminal : CiRunStatus) :
    Moves id (cancelQueuedJob host job detail terminal) :=
  fun s => (Keeps.gets _).bind fun _ => (prepareCiRunDirectory_moves host _ _ s).bind fun _ =>
    (writeCiRunRecord_moves host _ s).bind fun _ => unlink_moves _ s

theorem clearCiCancel_moves (project_name run_id : Bytes) : Moves id (clearCiCancel project_name run_id) :=
  fun s => (unlink_moves _ s).whenever

theorem removeAll_moves (project_name run_id : Bytes) (below : RunFile → Bool) :
    Moves id (removeAll project_name run_id below) :=
  fun s => (Keeps.gets _).bind fun _ => Keeps.forEach fun path => unlink_moves path s

theorem logsAside_moved (project_name run_id : Bytes) (attempt : Nat) (s : Files) :
    Moved id s (logsAside project_name run_id attempt s) := by
  unfold logsAside
  refine List.foldlRecOn s.paths _ (.refl s) fun t moved path _ => ?_
  split
  · split
    · refine moved.trans (moved_rename ?_)
      intro directory _ same
      cases same
    · exact moved
  · exact moved

/-- Resetting the run is best effort, so it never throws. -/
theorem resetRunForRequeue_moves (job : CiJobRequest) (lost_attempt : UInt32) (detail : Bytes) :
    (resetRunForRequeue host job lost_attempt detail).wp (Moved id s) (fun _ => Moved id s)
      (fun _ _ => False) s := by
  refine Keeps.bestEffort ?_ (.refl s)
  refine (prepareCiRunDirectory_moves host _ _ s).bind fun _ => ?_
  refine (removeAll_moves _ _ _ s).bind fun _ => ?_
  refine (Keeps.modify fun t moved => moved.trans (logsAside_moved _ _ _ t)).bind fun _ => ?_
  refine (removeAll_moves _ _ _ s).bind fun _ => ?_
  refine (removeAll_moves _ _ _ s).bind fun _ => ?_
  exact writeCiRunRecord_moves host _ s

/-- Whatever the program returns, the readable copies stay within their attempt. -/
theorem Moves.within {α : Type} {p : Op α} {attempts : Nat} (moves : Moves id p) (h : Within id attempts s) :
    p.wp (Within id attempts) (fun _ => Within id attempts) (fun _ => Within id attempts) s :=
  wp_mono (moves s s (.refl s)) (fun _ => h.moved) (fun _ _ => h.moved) (fun _ _ => h.moved)

/-- A queued file holds its attempt as it was written. -/
theorem within_put {attempts : Nat} {job : CiJobRequest} {modified : Int} (h : Within id attempts s)
    (used : job.attempt.toNat ≤ attempts) :
    Within id attempts (s.put (.queue .spool (ini id)) { bytes := serializeJob job, modified }) := by
  intro directory queued read found
  by_cases spool : directory = .spool
  · subst spool
    obtain ⟨file, held, _, parsed⟩ := Files.readAs_some.mp found
    rw [Files.get_put_self] at held
    cases held
    rw [(serialized_same parsed).1]
    exact used
  · have other : Path.queue directory (ini id) ≠ .queue .spool (ini id) := by
      intro same
      cases same
      exact spool rfl
    rw [readJobAt, Files.readAs_congr (Files.get_put_ne other)] at found
    exact h directory queued read found

/-- What a requeue leaves of the job, by its outcome. -/
def Requeued (id : Bytes) (attempts : Nat) (limit : UInt32) (outcome : RequeueOutcome) (t : Files) : Prop :=
  match outcome with
  | .requeued => Within id (attempts + 1) t
  | .failed => limit.toNat ≤ attempts ∧ Within id attempts t
  | .cancelled => Within id attempts t
  | .gone => Within id attempts t

theorem requeueJob_within {attempts : Nat} {job : CiJobRequest} {runner : Bytes} {enforce_limit : Bool}
    {max_attempts : UInt32} (h : Within id attempts s) (used : job.attempt.toNat ≤ attempts) :
    (requeueJob host id job runner enforce_limit max_attempts).wp (fun _ => True)
      (Requeued id attempts max_attempts) (fun _ _ => False) s := by
  unfold requeueJob
  split
  · rename_i spent
    have recorded : Keeps (Moved id s) (do
        let record ← gets fun s => gaveUpRecord host s job runner
        writeCiRunRecord host record : Op Unit) :=
      (Keeps.gets _).bind fun record => writeCiRunRecord_moves host record s
    have limit : max_attempts.toNat ≤ attempts := (UInt32.le_iff_toNat_le.mp spent.2).trans used
    rw [wp_bind]
    refine wp_mono (Keeps.bestEffort recorded (.refl s)) (fun _ _ => trivial) ?_ (fun _ _ => False.elim)
    intro _ t moved
    exact ⟨trivial, trivial, limit, h.moved (moved.trans ((moved_remove _).trans (moved_remove _)))⟩
  · simp only [wp_bind]
    refine wp_mono (@resetRunForRequeue_moves host id _ _ _ _) (fun _ _ => trivial) ?_ (fun _ _ => False.elim)
    intro _ t moved
    have next : (job.attempt + 1).toNat ≤ attempts + 1 := by
      rw [UInt32.toNat_add]
      exact (Nat.mod_le _ _).trans (Nat.add_le_add_right used 1)
    have queued := @within_put id t (attempts + 1) { job with attempt := job.attempt + 1 } host.millis
      ((h.moved moved).mono (Nat.le_succ _)) next
    exact ⟨trivial, trivial, trivial, queued.moved ((moved_remove _).trans (moved_remove _))⟩

/-- Whether the claimed copy of a job goes back to the queue. -/
def returns (s : Files) (job_id : Bytes) : Bool :=
  match readJobAt s .working (ini job_id) with
  | none => false
  | some job =>
    !(!job.parent_run_id.isEmpty && runSettled s job) && !isCiCancelRequested s job.project_name job.job_id

theorem requeueLocked_within {attempts : Nat} {runner : Bytes} {enforce_limit : Bool} {max_attempts : UInt32}
    (h : Within id attempts s) :
    (requeueLocked host id runner enforce_limit max_attempts).wp (fun _ => True)
      (fun outcome t => Requeued id attempts max_attempts outcome t
        ∧ (¬ returns s id → Within id attempts t)) (fun _ => Within id attempts) s := by
  unfold requeueLocked
  simp only [wp_bind, wp_gets]
  cases found : readJobAt s .working (ini id) with
  | none =>
    have left : Within id attempts ((s.rename (.queue .working (ini id))
        (.queue .working (ini id ++ ascii ".rejected"))).remove (.queue .leases (ini id))) :=
      h.moved ((moved_aside _).trans (moved_remove _))
    exact ⟨trivial, trivial, left, fun _ => left⟩
  | some job =>
    simp only [wp_bind, wp_gets]
    split
    · -- A child that has committed leaves the queue.
      rw [wp_bind]
      refine wp_mono (Keeps.forEach (fun _ => @unlink_moves id _ s) s (.refl s)) (fun _ _ => trivial) ?_ ?_
      · exact fun _ t moved => ⟨h.moved moved, fun _ => h.moved moved⟩
      · exact fun _ t moved => h.moved moved
    · rename_i uncommitted
      split
      · rw [wp_bind]
        refine wp_mono (@cancelQueuedJob_moves host id job _ _ s s (.refl s)) (fun _ _ => trivial) ?_ ?_
        · intro _ t moved
          have removed := moved.trans ((moved_remove (.queue .working (ini id))).trans
            (moved_remove (.queue .leases (ini id))))
          simp only [unlink, wp_bind, wp_modify]
          refine ⟨trivial, trivial, wp_mono (@clearCiCancel_moves id _ _ s _ removed) (fun _ _ => trivial) ?_ ?_⟩
          · exact fun _ u cleared => ⟨h.moved cleared, fun _ => h.moved cleared⟩
          · exact fun _ u cleared => h.moved cleared
        · exact fun _ t moved => h.moved moved
      · rename_i uncancelled
        have back : returns s id := by
          simpa [returns, found, uncancelled, or_iff_not_imp_left] using uncommitted
        have used := h .working (.inr rfl) job found
        refine wp_mono (requeueJob_within host h used) (fun _ kept => kept) ?_ (fun _ _ => False.elim)
        exact fun _ t left => ⟨left, fun stays => absurd back stays⟩

/-- The files of another job are out of a requeue's reach. -/
theorem requeueLocked_moves {job_id runner : Bytes} {enforce_limit : Bool} {max_attempts : UInt32}
    (other : job_id ≠ id) : Moves id (requeueLocked host job_id runner enforce_limit max_attempts) := by
  intro s
  have apart : ∀ directory, Queued directory → Path.queue directory (ini id) ≠ .queue .spool (ini job_id) := by
    intro directory _ same
    injection same with _ named
    exact other (ini_injective named).symm
  refine (Keeps.gets _).bind fun found => ?_
  cases found with
  | none =>
    refine (Keeps.modify fun t moved => moved.trans (moved_aside _)).bind fun _ => ?_
    exact (unlink_moves _ s).bind fun _ => Keeps.pure _
  | some job =>
    refine (Keeps.gets _).bind fun settled => (Keeps.gets _).bind fun cancelled => ?_
    split
    · exact (Keeps.forEach fun _ => unlink_moves _ s).bind fun _ => Keeps.pure _
    · split
      · refine (cancelQueuedJob_moves host job _ _ s).bind fun _ => ?_
        refine (unlink_moves _ s).bind fun _ => (unlink_moves _ s).bind fun _ => ?_
        exact (clearCiCancel_moves _ _ s).bind fun _ => Keeps.pure _
      · unfold requeueJob
        split
        · refine Keeps.bind (fun t moved => ?_) fun _ => ?_
          · exact Keeps.bestEffort ((Keeps.gets _).bind fun _ => writeCiRunRecord_moves host _ s) moved
          · exact (unlink_moves _ s).bind fun _ => (unlink_moves _ s).bind fun _ => Keeps.pure _
        · refine Keeps.bind (fun t moved => ?_) fun _ => ?_
          · exact wp_mono (@resetRunForRequeue_moves host id _ _ _ _) (fun _ => moved.trans)
              (fun _ _ => moved.trans) (fun _ _ => False.elim)
          · refine (writeFile_moves host apart s).bind fun _ => ?_
            exact (unlink_moves _ s).bind fun _ => (unlink_moves _ s).bind fun _ => Keeps.pure _

theorem requestCiCancel_moves (project_name run_id : Bytes) : Moves id (requestCiCancel host project_name run_id) := by
  intro s
  refine (Keeps.ofExcept _).bind fun _ => (Keeps.gets _).bind fun present => ?_
  split
  · exact Keeps.pure _
  · refine (Keeps.reads _).bind fun committed => ?_
    exact (writeFile_moves host run_other s).whenever.bind fun _ => Keeps.pure _

theorem cancelUnpublished_moves (request : CiJobRequest) : Moves id (cancelUnpublished host request) := by
  intro s
  refine (Keeps.reads _).bind fun parents => Keeps.forEach fun parent => Keeps.whenever ?_
  exact (requestCiCancel_moves host _ _ s).bind fun _ => Keeps.pure _

theorem supersedeJob_moves (request : CiJobRequest) (directory : Directory) (old : CiJobRequest) :
    Moves id (supersedeJob host request directory old) := by
  intro s
  refine Keeps.bind (Keeps.whenever ?_) fun _ => ?_
  · exact (requestCiCancel_moves host _ _ s).bind fun _ => Keeps.pure _
  · split
    · exact (cancelQueuedJob_moves host request _ _ s).whenever
    · split
      · exact Keeps.pure _
      · split
        · exact cancelQueuedJob_moves host old _ _ s
        · refine (Keeps.gets _).bind fun record => Keeps.whenever ?_
          exact (requestCiCancel_moves host _ _ s).bind fun _ => Keeps.pure _

theorem supersedeCiJobs_moves (request : CiJobRequest) : Moves id (supersedeCiJobs host request) := by
  intro s
  refine Keeps.whenever ((cancelUnpublished_moves host request s).whenever.bind fun _ => ?_)
  refine Keeps.forEach fun directory => (Keeps.gets _).bind fun names => Keeps.forEach fun name => ?_
  refine (Keeps.gets _).bind fun found => ?_
  cases found with
  | none => exact Keeps.pure _
  | some old => exact (supersedeJob_moves host request directory old s).whenever

/-- A job is queued at its first attempt. -/
theorem enqueueCiJob_within {request : CiJobRequest} (first : request.attempt = 1)
    (h : Within request.job_id 1 s) : Within request.job_id 1 ((enqueueCiJob host request).exec s).2 := by
  have used : request.attempt.toNat ≤ 1 := by
    rw [first]
    decide
  have kept : Keeps (Within request.job_id 1) (enqueueCiJob host request) := by
    refine (Keeps.ofExcept _).bind fun _ => ?_
    refine (Keeps.modify fun t within => within_put within used).bind fun _ => ?_
    refine Keeps.bind (fun t within => ?_) fun _ => fun t => (supersedeCiJobs_moves host request).within
    refine Keeps.bestEffort ?_ within
    refine Keeps.bind (fun u => (prepareCiRunDirectory_moves host _ _).within) fun _ => ?_
    exact fun u => (writeCiRunRecord_moves host _).within
  exact kept.exec h

theorem takeJob_moves (runner : Bytes) (lease_seconds : UInt64) (name : Bytes) :
    Moves id (takeJob host runner lease_seconds name) := by
  intro s
  refine (Keeps.gets _).bind fun queued => ?_
  split
  · exact Keeps.pure _
  · refine (Keeps.modify fun t moved => moved.trans (moved_rename ?_)).bind fun _ => ?_
    · refine (Keeps.gets _).bind fun found => ?_
      cases found with
      | none => exact (Keeps.modify fun t moved => moved.trans (moved_aside _)).bind fun _ => Keeps.pure _
      | some job =>
        refine (writeFile_moves host ?_ s).bind fun _ => Keeps.pure _
        intro directory queued same
        injection same with leases
        rcases queued with rfl | rfl <;> cases leases
    · intro directory _ same
      injection same with _ named
      subst named
      exact ⟨.spool, .inl rfl, rfl⟩

/-- Whether abandonCiJob puts the job back. -/
def handsBack (s : Files) (job_id token : Bytes) : Bool :=
  isValidCiId job_id && isValidLeaseToken token && heldUnder s job_id token && returns s job_id

theorem abandonCiJob_within {attempts : Nat} {job_id token runner : Bytes} (h : Within id attempts s)
    (kept : job_id = id → ¬ handsBack s job_id token) :
    (abandonCiJob host job_id token runner).wp (fun _ => True) (fun _ => Within id attempts)
      (fun _ => Within id attempts) s := by
  unfold abandonCiJob
  split
  · exact h
  · rename_i valid
    simp only [wp_bind, wp_gets]
    split
    · exact h
    · rename_i held
      rw [wp_bind]
      by_cases same : job_id = id
      · subst same
        have stays : ¬ returns s job_id := by
          intro back
          apply kept rfl
          simp only [not_not] at valid held
          simp only [handsBack, valid.1, valid.2, held, back, Bool.and_self]
        exact wp_mono (requeueLocked_within host h) (fun _ kept => kept) (fun _ _ left => left.2 stays)
          (fun _ _ left => left)
      · exact wp_mono ((requeueLocked_moves host same).within h) (fun _ _ => trivial) (fun _ _ left => left)
          (fun _ _ left => left)

/-- What one name of working/ leaves of the job: the limit is compared with no
more than the attempts used. -/
theorem reapEntry_within {attempts : Nat} {options : CiReapOptions} {name : Bytes} (h : Within id attempts s) :
    (reapEntry host options name).wp (fun _ => True)
      (fun reaped t => match reaped with
        | .lapsed job_id outcome =>
          if job_id = id then Requeued id attempts options.limit outcome t else Within id attempts t
        | _ => Within id attempts t)
      (fun _ => Within id attempts) s := by
  unfold reapEntry
  simp only
  split
  · exact h
  · simp only [wp_bind, wp_gets]
    split
    · rw [wp_bind]
      by_cases same : name.take (name.length - 4) = id
      · rw [same]
        refine wp_mono (requeueLocked_within host h) (fun _ kept => kept) ?_ (fun _ _ left => left)
        intro outcome t left
        rw [wp_pure]
        exact (if_pos rfl).mpr left.1
      · refine wp_mono ((requeueLocked_moves host same).within h) (fun _ _ => trivial) ?_ (fun _ _ left => left)
        intro outcome t left
        rw [wp_pure]
        exact (if_neg same).mpr left
    · exact h

end CkGit.Store
