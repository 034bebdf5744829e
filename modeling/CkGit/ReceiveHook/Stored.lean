import CkGit.ReceiveHook.Served
import CkGit.Store.ArrivalOrder

/-!
What a push queues, in the CI store. The refs of a push differ, so no job of it
supersedes another: when every call returns, the spool holds them all.
-/
namespace CkGit.ReceiveHook
open CkGit.Base CkGit.Ci CkGit.Workflow
open CkGit.Store (Files JobKey Submission jobKey keysOf groupsOf readJobAt ini)

/-- The call of the store behind an entry of the log. -/
inductive Queued.HandedAs : Queued → Submission → Prop where
  | job {request : CiJobRequest} (top : request.parent_run_id = []) : HandedAs (.job request) (.legacy request top)
  | group {parent : CiJobRequest} {children : List CiJobRequest} :
    HandedAs (.group parent children) (.workflow { parent, children })

/-- Everything queued is at its first attempt. -/
def CiState.Fresh (state : CiState) : Prop := ∀ queued ∈ state.queued, queued.parent.attempt = 1

variable {host : Host} {state : CiState} {update : RefUpdate} {push : Push}

theorem CiState.Fresh.enqueue (fresh : state.Fresh) (queued : Queued) (first : queued.parent.attempt = 1) :
    (state.enqueue queued).Fresh := by
  intro other member
  rcases List.mem_append.mp member with old | new
  · exact fresh other old
  · rw [List.mem_singleton.mp new]
    exact first

theorem storeCall_fresh {ref : Bytes} {effect : CiState → CiState} (fresh : state.Fresh)
    (kept : (effect state).Fresh) : (storeCall host ref effect state).2.Fresh := by
  rw [storeCall_eq]
  simp only
  split
  · exact fresh
  · exact kept

theorem enqueueCiJob_fresh {request : CiJobRequest} (fresh : state.Fresh) (first : request.attempt = 1) :
    (enqueueCiJob host request state).2.Fresh :=
  storeCall_fresh fresh (fresh.enqueue (.job request) first)

theorem enqueueCiWorkflow_fresh {parent : CiJobRequest} (fresh : state.Fresh) (first : parent.attempt = 1) :
    (enqueueCiWorkflow host parent state).2.Fresh := by
  unfold enqueueCiWorkflow
  cases host.workflow parent.commit_id with
  | none => exact enqueueCiJob_fresh fresh first
  | some workflow =>
    simp only
    by_cases plain : workflow.version = 1
    · rw [if_pos plain]
      exact enqueueCiJob_fresh fresh first
    rw [if_neg plain]
    by_cases unprepared : ¬ host.prepared { parent with
        runs_on := (ciWorkflowQueuePolicy host parent.commit_id).runs_on
        auto_cancel := (ciWorkflowQueuePolicy host parent.commit_id).auto_cancel }
    · rw [if_pos unprepared]
      exact enqueueCiJob_fresh fresh first
    · rw [if_neg unprepared]
      exact storeCall_fresh fresh (fresh.enqueue (.group _ _) first)

theorem enqueueUpdate_fresh (fresh : state.Fresh) : (enqueueUpdate host update state).2.Fresh := by
  unfold enqueueUpdate
  split
  · exact fresh
  · split
    · split
      · exact storeCall_fresh fresh fresh
      · exact fresh
    · split
      · exact fresh
      · exact enqueueCiWorkflow_fresh fresh rfl

theorem enqueueLines_fresh {lines : List Bytes} (fresh : state.Fresh) : (enqueueLines host lines state).2.Fresh := by
  induction lines generalizing state with
  | nil => exact fresh
  | cons line rest ih =>
    unfold enqueueLines
    split
    · exact ih fresh
    · rename_i update _
      have one : (enqueueUpdate host update state).2.Fresh := enqueueUpdate_fresh fresh
      split
      · rename_i after ran
        rw [ran] at one
        exact ih one
      · rename_i after ran
        rwa [ran] at one

/-- What a push queues belongs to some of its updates, one entry for each. -/
theorem run_queued (enabled : host.ci_enabled = true) (push : Push) :
    (run host push.input {}).Fresh ∧ ∃ chosen : List RefUpdate, chosen.Sublist push.updates
      ∧ (∀ update ∈ chosen, isAllowedRef update.ref = true)
      ∧ (run host push.input {}).queued.map (·.parent.ref) = chosen.map RefUpdate.ref := by
  obtain ⟨accepted, refused⟩ := run_input enabled push {}
  by_cases accept : Accepted push
  · rw [accepted accept]
    have sublist : ((reached host push.updates).filter (RefUpdate.enters host)).Sublist push.updates :=
      List.filter_sublist.trans (reached_sublist host push.updates)
    obtain ⟨added, grown, keys⟩ := (enqueueLines_effect host push.well_formed {}).queued
    refine ⟨enqueueLines_fresh nofun, _, sublist, fun update inside => accept.2.2 update (sublist.subset inside), ?_⟩
    have refs := congrArg (List.map Prod.fst) keys
    simp only [List.map_map] at refs
    rw [grown]
    exact refs
  · rw [refused accept]
    exact ⟨nofun, [], List.nil_sublist _, nofun, rfl⟩

/-- A key of an entry has the entry's ref and belongs to its run. -/
theorem handed_key {queued : Queued} {submission : Submission} {key : JobKey} (handed : queued.HandedAs submission)
    (valid : ∀ group ∈ submission.groups, Store.validateWorkflowGroup group = .ok ()) (own : key ∈ submission.keys) :
    key.ref = queued.parent.ref ∧ key.group = queued.parent.job_id := by
  cases handed with
  | job top =>
    obtain rfl := List.mem_singleton.mp own
    exact ⟨rfl, if_pos (List.isEmpty_iff.mpr top)⟩
  | @group parent children =>
    obtain ⟨child, inside, rfl⟩ := List.mem_map.mp own
    have good := valid _ (List.mem_singleton_self _)
    have consistent := (Store.validateWorkflowGroup_iff.mp good).1.consistent child inside
    simp only [Store.inconsistentChild, not_or, not_not] at consistent
    obtain ⟨run_id, _, _, ref, _⟩ := consistent
    refine ⟨ref, ?_⟩
    have filled : child.parent_run_id ≠ [] := run_id ▸ Store.parent_filled good
    exact (if_neg (by simpa [jobKey] using filled)).trans run_id

/-- When the calls of a push return, the spool holds exactly the jobs that it queued. -/
theorem pushed_jobs_queued (enabled : host.ci_enabled = true) (push : Push) {calls : List (Store.Host × Submission)}
    {t : Files} (handed : List.Forall₂ Queued.HandedAs (run host push.input {}).queued (calls.map Prod.snd))
    (distinct : Store.Distinct (calls.map Prod.snd)) (accepted : Store.Accepted calls ∅ t) :
    (∀ key ∈ keysOf (calls.map Prod.snd), ∃ job, readJobAt t .spool (ini key.job_id) = some job ∧ jobKey job = key)
      ∧ ∀ name, (t.get (.queue .spool name)).isSome → ∃ key ∈ keysOf (calls.map Prod.snd), name = ini key.job_id := by
  obtain ⟨fresh, chosen, sublist, allowed, refs⟩ := run_queued enabled push
  have entry : ∀ submission ∈ calls.map Prod.snd, ∃ queued ∈ (run host push.input {}).queued,
      queued.HandedAs submission := Store.forall₂_right handed
  have fits : ∀ call ∈ calls, call.2.Fits := by
    intro call member
    obtain ⟨queued, inside, same⟩ := entry call.2 (List.mem_map_of_mem member)
    generalize call.2 = submission at same
    cases same with
    | group => trivial
    | @job request top =>
      have ref : request.ref ∈ chosen.map RefUpdate.ref := refs ▸ List.mem_map_of_mem inside
      obtain ⟨update, there, same_ref⟩ := List.mem_map.mp ref
      have short := allowed update there
      simp only [isAllowedRef, Bool.and_eq_true, decide_eq_true_eq] at short
      have attempt : request.attempt = 1 := fresh _ inside
      refine ⟨same_ref ▸ short.1.2, ?_⟩
      rw [attempt]
      decide
  have standing := (Store.standing_empty (keysOf (calls.map Prod.snd))).run distinct (fun _ own => own) fits accepted
  have outcome := standing.outcome distinct
  have placed : ∀ key ∈ keysOf (calls.map Prod.snd), ∃ queued ∈ (run host push.input {}).queued,
      key.ref = queued.parent.ref ∧ key.group = queued.parent.job_id := by
    intro key own
    obtain ⟨submission, member, mine⟩ := List.mem_flatMap.mp own
    obtain ⟨queued, inside, same⟩ := entry submission member
    exact ⟨queued, inside, handed_key same
      (fun group listed => standing.valid group (List.mem_flatMap.mpr ⟨submission, member, listed⟩)) mine⟩
  have apart : ((run host push.input {}).queued.map (·.parent.ref)).Nodup :=
    refs ▸ push.distinct.sublist (sublist.map _)
  -- An overtaker has the same ref, so it is of the same run and not newer.
  have live : ∀ key ∈ keysOf (calls.map Prod.snd), ¬ Store.Doomed (keysOf (calls.map Prod.snd)) key := by
    rintro key own ⟨newer, among, overtakes⟩
    obtain ⟨queued, inside, ref, group⟩ := placed key own
    obtain ⟨other, there, other_ref, other_group⟩ := placed newer among
    have one : other = queued :=
      List.inj_on_of_nodup_map apart there inside (other_ref.symm.trans (overtakes.ref.trans ref))
    have later := overtakes.later
    rw [group, other_group, one] at later
    exact List.lt_irrefl _ later
  refine ⟨fun key own => outcome.held key own (live key own), fun name present => ?_⟩
  obtain ⟨key, own, _, named⟩ := outcome.only name present
  exact ⟨key, own, named⟩

/-- A host whose store never fails. -/
def hostQueueing : Host := { hostFailing "" with job_id := fun ref => decimal ref.length }

def branchRequest (ref : String) : CiJobRequest := jobRequest hostQueueing (creation ref)

def branchCalls : List (Store.Host × Submission) :=
  [(Store.quietHost, .legacy (branchRequest "refs/heads/dev") rfl),
    (Store.quietHost, .legacy (branchRequest "refs/heads/main") rfl)]

def afterDev : Files := ((Store.enqueueCiJob Store.quietHost (branchRequest "refs/heads/dev")).exec ∅).2

def afterMain : Files := ((Store.enqueueCiJob Store.quietHost (branchRequest "refs/heads/main")).exec afterDev).2

theorem pushed_jobs_queued_branches : ∀ key ∈ keysOf (branchCalls.map Prod.snd),
    ∃ job, readJobAt afterMain .spool (ini key.job_id) = some job ∧ jobKey job = key := by
  have queued : (run hostQueueing branchesPush.input {}).queued
      = [.job (branchRequest "refs/heads/dev"), .job (branchRequest "refs/heads/main")] := by decide +kernel
  have handed : List.Forall₂ Queued.HandedAs (run hostQueueing branchesPush.input {}).queued
      (branchCalls.map Prod.snd) := by
    rw [queued]
    exact .cons (.job rfl) (.cons (.job rfl) .nil)
  have distinct : Store.Distinct (branchCalls.map Prod.snd) := by
    unfold Store.Distinct
    decide +kernel
  have accepted : Store.Accepted branchCalls ∅ afterMain :=
    ⟨afterDev, Store.returns_exec (by decide +kernel), afterMain, Store.returns_exec (by decide +kernel), rfl⟩
  exact (pushed_jobs_queued rfl branchesPush handed distinct accepted).1

end CkGit.ReceiveHook
