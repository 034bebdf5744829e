import CkGit.Store.Regrouping
import Mathlib.Data.Finite.Prod
import Mathlib.Data.Set.Finite.List

/-!
# Superseding and the order of arrival

Jobs and workflows reach the queue in some order. Which of them stay and which
are cancelled depends on their ids, branches and flags alone. That needs jobs
whose files can be read back: enqueueCiJob takes a ref of any length, and
parseJob refuses more than 512 bytes.
-/
namespace CkGit.Store
open CkGit.Base CkGit.Ci Prog
open CkGit.Workflow (queuedRecord previewRecord)

/-- What the hook hands over: a job of its own, or a workflow with its children. -/
inductive Submission where
  | legacy (job : CiJobRequest) (top : job.parent_run_id = [])
  | workflow (group : WorkflowGroup)

def Submission.accept (host : Host) (submission : Submission) : Op Unit :=
  match submission with
  | .legacy job _ => enqueueCiJob host job
  | .workflow group => enqueueCiWorkflowJobs host group.parent group.children

def Submission.ids (submission : Submission) : List Bytes :=
  match submission with
  | .legacy job _ => [job.job_id]
  | .workflow group => group.parent.job_id :: group.children.map (·.job_id)

def Submission.keys (submission : Submission) : List JobKey :=
  match submission with
  | .legacy job _ => [jobKey job]
  | .workflow group => group.children.map jobKey

def Submission.groups (submission : Submission) : List WorkflowGroup :=
  match submission with
  | .legacy .. => []
  | .workflow group => [group]

/-- The bounds of parseJob that enqueueCiJob leaves unchecked. -/
def Submission.Fits (submission : Submission) : Prop :=
  match submission with
  | .legacy job _ => job.ref.length ≤ 512 ∧ 1 ≤ job.attempt.toNat ∧ job.attempt.toNat ≤ 1000
  | .workflow _ => True

/-- Every call of a run returned. -/
def Accepted (calls : List (Host × Submission)) (s t : Files) : Prop :=
  match calls with
  | [] => s = t
  | (host, submission) :: rest => ∃ u, (submission.accept host).Returns s () u ∧ Accepted rest u t

/-- The queue holds the jobs no newer one cancels, and every other job has a Cancelled record. -/
structure Outcome (all : List JobKey) (t : Files) : Prop where
  held : ∀ key ∈ all, ¬ Doomed all key → ∃ job, readJobAt t .spool (ini key.job_id) = some job ∧ jobKey job = key
  only : ∀ name, (t.get (.queue .spool name)).isSome → ∃ key ∈ all, ¬ Doomed all key ∧ name = ini key.job_id
  cancelled : ∀ key ∈ all, Doomed all key → Retired t key

def keysOf (submissions : List Submission) : List JobKey := submissions.flatMap Submission.keys

def groupsOf (submissions : List Submission) : List WorkflowGroup := submissions.flatMap Submission.groups

def Distinct (submissions : List Submission) : Prop := (submissions.flatMap Submission.ids).Nodup

section
variable {submissions : List Submission} {all : List JobKey}

theorem key_id {submission : Submission} {key : JobKey} (member : key ∈ submission.keys) :
    key.job_id ∈ submission.ids := by
  cases submission with
  | legacy job _ =>
    obtain rfl := List.mem_singleton.mp member
    exact List.mem_singleton_self _
  | workflow group =>
    obtain ⟨child, inside, rfl⟩ := List.mem_map.mp member
    exact List.mem_cons_of_mem _ (List.mem_map_of_mem inside)

theorem group_of {submission : Submission} {group : WorkflowGroup} (member : group ∈ submission.groups) :
    submission = .workflow group := by
  cases submission with
  | legacy => cases member
  | workflow other => rw [List.mem_singleton.mp member]

theorem submitted_workflow {group : WorkflowGroup} (member : group ∈ groupsOf submissions) :
    .workflow group ∈ submissions := by
  obtain ⟨submission, inside, own⟩ := List.mem_flatMap.mp member
  exact group_of own ▸ inside

/-- An id belongs to one submission. -/
theorem Distinct.sole (distinct : Distinct submissions) {one two : Submission} {id : Bytes} (first : one ∈ submissions)
    (second : two ∈ submissions) (inside : id ∈ one.ids) (again : id ∈ two.ids) : one = two := by
  by_contra other
  have apart := (List.nodup_flatMap.mp distinct).2
  have symmetric : Std.Symm (Function.onFun List.Disjoint Submission.ids) := ⟨fun _ _ h => h.symm⟩
  exact apart.forall first second other inside again

theorem Distinct.nodup (distinct : Distinct submissions) {submission : Submission} (member : submission ∈ submissions) :
    submission.ids.Nodup := (List.nodup_flatMap.mp distinct).1 submission member

/-- The submissions with their valid workflows are coherent. -/
theorem Distinct.coherent (distinct : Distinct submissions) (within : ∀ key ∈ keysOf submissions, key ∈ all)
    (valid : ∀ group ∈ groupsOf submissions, validateWorkflowGroup group = .ok ()) :
    Coherent all (keysOf submissions) (groupsOf submissions) := by
  have workflow : ∀ group ∈ groupsOf submissions, .workflow group ∈ submissions := fun group => submitted_workflow
  have parent_id : ∀ group : WorkflowGroup, group.parent.job_id ∈ (Submission.workflow group).ids := fun group =>
    List.mem_cons_self
  have same : ∀ one ∈ groupsOf submissions, ∀ two ∈ groupsOf submissions, one.parent.job_id = two.parent.job_id →
      one = two := by
    intro one first two second equal
    have whole := distinct.sole (workflow one first) (workflow two second) (parent_id one) (equal ▸ parent_id two)
    injection whole
  have formed : ∀ group ∈ groupsOf submissions, ∀ child ∈ group.children, ¬ inconsistentChild group.parent child [] [] :=
    fun group member => (validateWorkflowGroup_iff.mp (valid group member)).1.consistent
  have child_of : ∀ key ∈ keysOf submissions, key.parent_run_id = [] ∨ ∃ group ∈ groupsOf submissions,
      ∃ child ∈ group.children, key = jobKey child ∧ child.parent_run_id = group.parent.job_id := by
    intro key member
    obtain ⟨submission, inside, own⟩ := List.mem_flatMap.mp member
    cases submission with
    | legacy job top =>
      obtain rfl := List.mem_singleton.mp own
      exact .inl top
    | workflow group =>
      have listed : group ∈ groupsOf submissions := List.mem_flatMap.mpr ⟨_, inside, List.mem_singleton_self _⟩
      obtain ⟨child, among, rfl⟩ := List.mem_map.mp own
      exact .inr ⟨group, listed, child, among, rfl, by_contra fun other => formed group listed child among (.inl other)⟩
  refine ⟨within, ?_, same, ?_, valid, ?_, ?_, ?_⟩
  · intro one first two second equal
    obtain ⟨holder, inside, own⟩ := List.mem_flatMap.mp first
    obtain ⟨other, inside', own'⟩ := List.mem_flatMap.mp second
    obtain rfl := distinct.sole inside inside' (key_id own) (equal ▸ key_id own')
    cases holder with
    | legacy job top => rw [List.mem_singleton.mp own, List.mem_singleton.mp own']
    | workflow group =>
      obtain ⟨child, among, rfl⟩ := List.mem_map.mp own
      obtain ⟨child', among', rfl⟩ := List.mem_map.mp own'
      have unique := (List.nodup_cons.mp (distinct.nodup inside)).2
      rw [List.inj_on_of_nodup_map unique among among' equal]
  · intro key first group second equal
    obtain ⟨holder, inside, own⟩ := List.mem_flatMap.mp first
    obtain rfl := distinct.sole inside (workflow group second) (key_id own) (equal ▸ parent_id group)
    obtain ⟨child, among, rfl⟩ := List.mem_map.mp own
    exact (List.nodup_cons.mp (distinct.nodup inside)).1 (equal ▸ List.mem_map_of_mem among)
  · exact fun group member child inside => List.mem_flatMap.mpr ⟨_, workflow group member, List.mem_map_of_mem inside⟩
  · intro group member key own parented
    rcases child_of key own with none | ⟨owner, listed, child, among, rfl, id⟩
    · exact absurd (parented.symm.trans none) (parent_filled (valid group member))
    · obtain rfl := same owner listed group member (id.symm.trans parented)
      have consistent := formed owner listed child among
      exact ⟨by_contra fun other => consistent (.inr (.inl other)),
        by_contra fun other => consistent (.inr (.inr (.inr (.inl other))))⟩
  · intro key own filled
    rcases child_of key own with none | ⟨owner, listed, child, among, rfl, id⟩
    · exact absurd none filled
    · exact ⟨owner, listed, id.symm⟩

end

variable {all keys more : List JobKey} {groups wider : List WorkflowGroup} {s t u v w : Files} {host : Host} {r : Unit}

/-- A key whose ids nothing submitted before uses. -/
structure Unused (keys : List JobKey) (groups : List WorkflowGroup) (key : JobKey) : Prop where
  other : ∀ old ∈ keys, old.job_id ≠ key.job_id
  parents : ∀ group ∈ groups, group.parent.job_id ≠ key.job_id ∧ group.parent.job_id ≠ key.parent_run_id

theorem Unused.unknown {key : JobKey} (fresh : Unused keys groups key) (h : Consistent all keys groups s) :
    loadCiRun s key.project_name key.job_id = none := by
  cases loaded : loadCiRun s key.project_name key.job_id with
  | none => rfl
  | some record =>
    unfold loadCiRun at loaded
    split at loaded
    · obtain ⟨file, held, _⟩ := Files.readAs_some.mp loaded
      rcases h.files _ file held with ⟨old, own, same⟩ | ⟨group, own, same⟩
      · exact absurd same (fresh.other old own)
      · exact absurd same (fresh.parents group own).1
    · cases loaded

/-- Fresh keys join without a file of their own. -/
theorem Consistent.extend (h : Consistent all keys groups s) (fewer : ∀ key ∈ keys, key ∈ more)
    (fewer' : ∀ group ∈ groups, group ∈ wider) (fresh : ∀ key ∈ more, key ∈ keys ∨ Unused keys groups key) :
    Consistent all more wider s := by
  refine ⟨fun path file held => ?_, fun key own record loaded => ?_⟩
  · have allowed := h.files path file held
    cases path with
    | queue directory name =>
      cases directory with
      | spool =>
        obtain ⟨job, small, parsed, own, named⟩ := allowed
        exact ⟨job, small, parsed, fewer _ own, named⟩
      | working => exact allowed
      | leases => trivial
      | groups =>
        obtain ⟨group, own, text, named⟩ := allowed
        exact ⟨group, fewer' group own, text, named⟩
    | run project id kind =>
      cases kind with
      | record =>
        exact allowed.imp (fun ⟨key, own, same⟩ => ⟨key, fewer key own, same⟩)
          fun ⟨group, own, same⟩ => ⟨group, fewer' group own, same⟩
      | cancel =>
        obtain ⟨group, own, same, doomed⟩ := allowed
        refine ⟨group, fewer' group own, same, fun key member parented => ?_⟩
        rcases fresh key member with old | new
        · exact doomed key old parented
        · exact absurd (same.trans parented.symm) (new.parents group own).2
      | workflow =>
        obtain ⟨group, own, text, same⟩ := allowed
        exact ⟨group, fewer' group own, text, same⟩
      | directory | outputsPending | outputsCommitted | log | aside | artifact | incoming => trivial
  · rcases fresh key own with old | new
    · exact h.settled key old record loaded
    · cases (new.unknown h).symm.trans loaded

/-- Everything submitted has come, and of two that came the older is retired when the newer stays. -/
structure Calm (all keys : List JobKey) (s : Files) : Prop where
  arrived : ∀ key ∈ keys, Arrived s key
  resolved : ∀ older ∈ keys, ∀ newer ∈ keys, Overtakes newer older → ¬ Doomed all newer → Retired s older

/-- New keys that have come and passed leave everything calm. -/
theorem Calm.extend {news : List JobKey} (calm : Calm all keys s)
    (split : ∀ key ∈ more, key ∈ keys ∨ key ∈ news) (before : Advance all more wider s w)
    (after : Advance all more wider w t) (came : ∀ key ∈ news, Arrived w key)
    (passed : ∀ key ∈ news, Passed all more key w t) : Calm all more t := by
  have here : ∀ key ∈ more, Arrived w key := fun key member =>
    (split key member).elim (fun old => before.arrived key member (calm.arrived key old)) (came key)
  refine ⟨fun key member => after.arrived key member (here key member), fun older one newer two overtakes live => ?_⟩
  rcases split newer two with old | new
  · rcases split older one with old' | new'
    · exact after.retired older one (before.retired older one (calm.resolved older old' newer old overtakes live))
    · exact (passed older new').newer newer two (here newer two) live overtakes
  · exact (passed newer new).older older one (here older one) overtakes

/-- The preview record is no end of the job. -/
theorem preview_keeps (coherent : Coherent all keys groups) {request : CiJobRequest} (mine : Admitted keys request) :
    Keeps (fun u => Step all keys groups v u ∧ Spooled u (jobKey request)
        ∧ ∀ record, loadCiRun u request.project_name request.job_id = some record → ciRunStatusIsActive record.status)
      (do
        prepareCiRunDirectory host request.project_name request.job_id
        writeCiRunRecord host (previewRecord request)) := by
  have directory : Keeps (fun u => Step all keys groups v u ∧ Spooled u (jobKey request)
      ∧ ∀ record, loadCiRun u request.project_name request.job_id = some record → ciRunStatusIsActive record.status)
      (ensureRunDir host request.project_name request.job_id) := by
    refine .bind (.gets _) fun _ => .whenever (.modify fun u held => ?_)
    obtain ⟨step, queued, active⟩ := held
    have made : Step all keys groups u (u.put (.run request.project_name request.job_id .directory)
        ⟨[], host.millis⟩) := by
      refine step.consistent.unwatched fun path watched => Files.get_put_ne ?_
      rintro rfl
      simp [Watched] at watched
    refine ⟨step.trans made, by rwa [Spooled, Files.get_put_ne (by simp)], fun record loaded => active record ?_⟩
    rwa [loadCiRun_same (Files.get_put_ne (by simp))] at loaded
  refine .bind (.bind (.ofExcept _) fun _ => .bind (.ofExcept _) fun _ => directory) fun _ => ?_
  unfold writeCiRunRecord
  cases written : runRecordText (previewRecord request) with
  | error error => exact fun _ held => held
  | ok text =>
    show Keeps _ (do
      ensureRunDir host request.project_name request.job_id
      writeFile host (.run request.project_name request.job_id .record) text)
    refine .bind directory fun _ => .modify fun u held => ?_
    obtain ⟨step, queued, active⟩ := held
    have first : 1 ≤ (1 : UInt32).toNat ∧ (1 : UInt32).toNat ≤ 1000 := by decide
    have fits : RunFits (previewRecord request) :=
      ⟨mine.ref_short, first, .inl rfl, Nat.zero_le _, fun _ inside => absurd inside List.not_mem_nil⟩
    have read : loadCiRun (u.put (.run request.project_name request.job_id .record) ⟨text, host.millis⟩)
        request.project_name request.job_id = some (previewRecord request) := written_loads written fits
    have pending : ∀ record, loadCiRun (u.put (.run request.project_name request.job_id .record) ⟨text, host.millis⟩)
        request.project_name request.job_id = some record → ciRunStatusIsActive record.status := by
      intro record loaded
      cases read.symm.trans loaded
      rfl
    refine ⟨step.trans (step.consistent.record coherent mine.own ?_ pending), ?_, pending⟩
    · rintro ⟨_, record, loaded, status⟩
      have open_ := active record loaded
      rw [status] at open_
      exact absurd open_ (by decide)
    · rwa [Spooled, Files.get_put_ne (by simp)]

theorem legacy_settles (h : Consistent all keys groups s) (coherent : Coherent all keys groups) {request : CiJobRequest}
    (own : jobKey request ∈ keys) (unknown : loadCiRun s request.project_name request.job_id = none)
    (fits : request.ref.length ≤ 512 ∧ 1 ≤ request.attempt.toNat ∧ request.attempt.toNat ≤ 1000)
    (run : (enqueueCiJob host request).Returns s r t) : ∃ w, Advance all keys groups s w ∧ Advance all keys groups w t
      ∧ Arrived w (jobKey request) ∧ Passed all keys (jobKey request) w t := by
  simp only [enqueueCiJob, writeFile, returns_bind, returns_ofExcept, returns_modify, failIf, rejectIf_ok, not_not] at run
  obtain ⟨_, _, ⟨valid, rfl⟩, _, v, rfl, _, w, previewed, superseded⟩ := run
  have mine : Admitted keys request := ⟨own, fits.1, fits.2⟩
  have readable : ReadableJob request ∧ request.runs_on.length ≤ kMaximumCiLabels := by
    simp only [validRequest, Bool.and_eq_true, decide_eq_true_eq, List.all_eq_true] at valid
    obtain ⟨⟨⟨⟨⟨⟨dependencies, id⟩, project⟩, client⟩, commit⟩, few⟩, labels⟩ := valid
    exact ⟨⟨id, project, client, commit, dependencies, fits.1, fits.2, labels, (sortedUnique_length _).trans few⟩, few⟩
  have same_record : loadCiRun (s.put (.queue .spool (ini request.job_id)) ⟨serializeJob request, host.millis⟩)
      request.project_name request.job_id = none := (loadCiRun_same (Files.get_put_ne (by simp))).trans unknown
  have first : Step all keys groups s
      (s.put (.queue .spool (ini request.job_id)) ⟨serializeJob request, host.millis⟩) := by
    refine h.put ⟨_, readable.1.fits readable.2, parseJob_serializeJob readable.1, own, rfl⟩
      (fun _ other => by cases other) fun key member touched => ?_
    rcases touched with same | other
    · obtain rfl := coherent.ids (jobKey request) own key member (ini_injective (by injection same))
      refine .stay (fun ⟨_, run, held, _⟩ => ?_) (fun _ => by simp [Spooled, jobKey]) fun run held => ?_
      · cases unknown.symm.trans held
      · cases same_record.symm.trans held
    · cases other
  obtain ⟨second, queued, _⟩ := (preview_keeps coherent mine).returns_bestEffort
    ⟨.refl first.consistent, by simp [Spooled, jobKey], fun record held => by cases same_record.symm.trans held⟩ previewed
  obtain ⟨third, passed⟩ := supersedeCiJobs_passed second.consistent coherent mine superseded
  exact ⟨w, (first.trans second).toAdvance, third.toAdvance, .inl queued, passed⟩

theorem workflow_settles (h : Consistent all keys groups s) (coherent : Coherent all keys groups) {group : WorkflowGroup}
    (own : group ∈ groups)
    (unpublished : ∀ project file, s.get (.run project group.parent.job_id .workflow) = some file → False)
    (unwritten : s.get (.queue .groups (ini group.parent.job_id)) = none)
    (run : (enqueueCiWorkflowJobs host group.parent group.children).Returns s r t) :
    ∃ w, Advance all keys groups s w ∧ Advance all keys groups w t ∧ (∀ child ∈ group.children, Arrived w (jobKey child))
      ∧ ∀ child ∈ group.children, Passed all keys (jobKey child) w t := by
  simp only [enqueueCiWorkflowJobs, returns_bind, returns_ofExcept, returns_reads] at run
  obtain ⟨_, _, ⟨_, rfl⟩, bytes, _, ⟨text, rfl⟩, old, _, ⟨published, rfl⟩, run⟩ := run
  have fresh : old = none := by
    cases old with
    | none => rfl
    | some old =>
      unfold publishedJournal at published
      split at published
      · obtain ⟨file, held, _⟩ := capped_some published
        exact (unpublished _ file held).elim
      · cases published
  subst fresh
  simp only [writeJournal, writeFile, returns_bind, returns_gets, returns_ofExcept, returns_reads] at run
  obtain ⟨_, _, ⟨_, rfl⟩, _, _, ⟨_, rfl⟩, _, v, ⟨existing, _, ⟨journal, rfl⟩, journaled⟩, _, w, reconciled,
    superseded⟩ := run
  have absent : existing = none := by
    cases existing with
    | none => rfl
    | some bytes =>
      obtain ⟨file, held, _⟩ := capped_some journal
      cases unwritten.symm.trans held
  subst absent
  simp only [returns_bind, returns_gets, returns_ofExcept, returns_modify] at journaled
  obtain ⟨_, _, ⟨_, rfl⟩, _, _, ⟨_, rfl⟩, rfl⟩ := journaled
  have first := h.journal own text host.millis
  obtain ⟨second, came⟩ := reconcileWorkflowGroups_arrives first.consistent coherent reconciled
  have arrived := came group own (by simp)
  obtain ⟨third, passed, _⟩ := superseded.forEach (Advance all keys groups w)
    (fun child u => jobKey child ∈ keys → Passed all keys (jobKey child) w u) (.refl second.consistent)
    fun child member _ y z kept pass => by
      obtain ⟨read, parsed⟩ := (validateWorkflowGroup_iff.mp (coherent.valid group own)).1.children child member
      have found := parsed_read parsed
      have admitted : Admitted keys child := by
        have key_of : jobKey child ∈ keys := coherent.children group own child member
        obtain ⟨same, _⟩ := serialized_same parsed
        have ref : read.ref = child.ref := by rw [same]
        have attempt : read.attempt = child.attempt := by rw [same]
        exact ⟨key_of, ref ▸ found.readable.ref_short, attempt ▸ found.readable.attempt_range⟩
      obtain ⟨step, here⟩ := supersedeCiJobs_passed kept.consistent coherent admitted pass
      exact ⟨kept.trans step.toAdvance, fun _ => here.since kept,
        fun other held own => (held own).step own step.toAdvance⟩
  exact ⟨w, first.trans second, third, arrived, fun child member =>
    passed child member (coherent.children group own child member)⟩

/-- What holds between two submissions. -/
structure Standing (all : List JobKey) (earlier : List Submission) (s : Files) : Prop where
  consistent : Consistent all (keysOf earlier) (groupsOf earlier) s
  calm : Calm all (keysOf earlier) s
  valid : ∀ group ∈ groupsOf earlier, validateWorkflowGroup group = .ok ()

theorem accept_valid {submission : Submission} (run : (submission.accept host).Returns s () t) :
    ∀ group ∈ submission.groups, validateWorkflowGroup group = .ok () := by
  intro group member
  obtain rfl := group_of member
  simp only [Submission.accept, enqueueCiWorkflowJobs, returns_bind, returns_ofExcept] at run
  obtain ⟨_, _, ⟨valid, _⟩, _⟩ := run
  exact valid

theorem mem_keysOf {earlier : List Submission} {submission : Submission} {key : JobKey} :
    key ∈ keysOf (earlier ++ [submission]) ↔ key ∈ keysOf earlier ∨ key ∈ submission.keys := by
  simp [keysOf]

theorem mem_groupsOf {earlier : List Submission} {submission : Submission} {group : WorkflowGroup} :
    group ∈ groupsOf (earlier ++ [submission]) ↔ group ∈ groupsOf earlier ∨ group ∈ submission.groups := by
  simp [groupsOf]

theorem next_apart {earlier : List Submission} {submission : Submission} (distinct : Distinct (earlier ++ [submission])) :
    ∀ old ∈ earlier, ∀ id ∈ old.ids, id ∉ submission.ids := by
  rw [Distinct, List.flatMap_append] at distinct
  intro old member id inside again
  refine List.disjoint_of_nodup_append distinct (List.mem_flatMap.mpr ⟨old, member, inside⟩) ?_
  simpa using again

/-- The keys of the next submission are unused. -/
theorem next_unused {earlier : List Submission} {submission : Submission} (distinct : Distinct (earlier ++ [submission]))
    (valid : ∀ group ∈ groupsOf (earlier ++ [submission]), validateWorkflowGroup group = .ok ()) :
    ∀ key ∈ submission.keys, Unused (keysOf earlier) (groupsOf earlier) key := by
  intro key own
  have apart := next_apart distinct
  refine ⟨fun old member same => ?_, fun group member => ⟨fun same => ?_, fun same => ?_⟩⟩
  · obtain ⟨holder, inside, mine⟩ := List.mem_flatMap.mp member
    exact apart holder inside _ (key_id mine) (same ▸ key_id own)
  · exact apart _ (submitted_workflow member) _ List.mem_cons_self (same ▸ key_id own)
  · cases submission with
    | legacy job top =>
      obtain rfl := List.mem_singleton.mp own
      exact parent_filled (valid group (mem_groupsOf.mpr (.inl member))) (same.trans top)
    | workflow other =>
      obtain ⟨child, inside, rfl⟩ := List.mem_map.mp own
      have formed := (validateWorkflowGroup_iff.mp (valid other (mem_groupsOf.mpr (.inr (List.mem_singleton_self _))))).1
      have parented : child.parent_run_id = other.parent.job_id := by_contra fun no =>
        formed.consistent child inside (.inl no)
      have shared : group.parent.job_id = other.parent.job_id := same.trans parented
      exact apart _ (submitted_workflow member) _ List.mem_cons_self (shared ▸ List.mem_cons_self)

theorem Standing.accept {earlier : List Submission} {submission : Submission} (h : Standing all earlier s)
    (distinct : Distinct (earlier ++ [submission])) (within : ∀ key ∈ keysOf (earlier ++ [submission]), key ∈ all)
    (fits : submission.Fits) (run : (submission.accept host).Returns s () t) :
    Standing all (earlier ++ [submission]) t := by
  have valid : ∀ group ∈ groupsOf (earlier ++ [submission]), validateWorkflowGroup group = .ok () := by
    intro group member
    exact (mem_groupsOf.mp member).elim (h.valid group) (accept_valid run group)
  have coherent := distinct.coherent within valid
  have unused := next_unused distinct valid
  have wider : Consistent all (keysOf (earlier ++ [submission])) (groupsOf (earlier ++ [submission])) s :=
    h.consistent.extend (fun key own => mem_keysOf.mpr (.inl own)) (fun group own => mem_groupsOf.mpr (.inl own))
      fun key own => (mem_keysOf.mp own).imp id (unused key)
  obtain ⟨w, before, after, came, passed⟩ : ∃ w, Advance all (keysOf (earlier ++ [submission]))
      (groupsOf (earlier ++ [submission])) s w ∧ Advance all (keysOf (earlier ++ [submission]))
      (groupsOf (earlier ++ [submission])) w t ∧ (∀ key ∈ submission.keys, Arrived w key)
      ∧ ∀ key ∈ submission.keys, Passed all (keysOf (earlier ++ [submission])) key w t := by
    cases submission with
    | legacy job top =>
      have own : jobKey job ∈ Submission.keys (.legacy job top) := List.mem_singleton_self _
      obtain ⟨w, before, after, came, passed⟩ := legacy_settles wider coherent (mem_keysOf.mpr (.inr own))
        ((unused _ own).unknown h.consistent) fits run
      refine ⟨w, before, after, fun key member => ?_, fun key member => ?_⟩
      · exact List.mem_singleton.mp member ▸ came
      · exact List.mem_singleton.mp member ▸ passed
    | workflow group =>
      have own : group ∈ groupsOf (earlier ++ [.workflow group]) := mem_groupsOf.mpr (.inr (List.mem_singleton_self _))
      have other : ∀ old ∈ groupsOf earlier, old.parent.job_id ≠ group.parent.job_id := fun old among same =>
        next_apart distinct _ (submitted_workflow among) _ List.mem_cons_self (same ▸ List.mem_cons_self)
      obtain ⟨w, before, after, came, passed⟩ := workflow_settles wider coherent own (fun project file held => by
          obtain ⟨old, among, _, same⟩ := h.consistent.files _ file held
          exact other old among same) (by
          cases held : s.get (.queue .groups (ini group.parent.job_id)) with
          | none => rfl
          | some file =>
            obtain ⟨old, among, _, named⟩ := h.consistent.files _ file held
            exact absurd (ini_injective named).symm (other old among)) run
      refine ⟨w, before, after, fun key member => ?_, fun key member => ?_⟩
      · obtain ⟨child, inside, rfl⟩ := List.mem_map.mp member
        exact came child inside
      · obtain ⟨child, inside, rfl⟩ := List.mem_map.mp member
        exact passed child inside
  exact ⟨after.consistent, h.calm.extend (fun key member => mem_keysOf.mp member) before after came passed, valid⟩

theorem Standing.run {calls : List (Host × Submission)} {earlier : List Submission} (h : Standing all earlier s)
    (distinct : Distinct (earlier ++ calls.map Prod.snd))
    (within : ∀ key ∈ keysOf (earlier ++ calls.map Prod.snd), key ∈ all) (fits : ∀ call ∈ calls, call.2.Fits)
    (accepted : Accepted calls s t) : Standing all (earlier ++ calls.map Prod.snd) t := by
  induction calls generalizing earlier s with
  | nil =>
    obtain rfl := accepted
    simpa using h
  | cons call rest ih =>
    obtain ⟨host, submission⟩ := call
    obtain ⟨u, run, later⟩ := accepted
    have split : earlier ++ List.map Prod.snd ((host, submission) :: rest)
        = (earlier ++ [submission]) ++ List.map Prod.snd rest := by simp
    rw [split] at distinct within ⊢
    have shorter : Distinct (earlier ++ [submission]) := by
      rw [Distinct, List.flatMap_append] at distinct
      exact distinct.of_append_left
    have next := h.accept shorter (fun key own => within key (by
      rw [keysOf, List.flatMap_append]
      exact List.mem_append_left _ own)) (fits _ List.mem_cons_self) run
    exact ih next distinct within (fun call member => fits call (List.mem_cons_of_mem _ member)) later

theorem Overtakes.trans {one two three : JobKey} (first : Overtakes one two) (second : Overtakes two three) :
    Overtakes one three :=
  ⟨second.branch, first.project.trans second.project, first.ref.trans second.ref,
    List.lt_trans second.later first.later, first.policy⟩

/-- Some overtaker of a doomed key is not doomed itself. -/
theorem doomed_by_standing {key : JobKey} (doomed : Doomed all key) :
    ∃ newer ∈ all, Overtakes newer key ∧ ¬ Doomed all newer := by
  have transitive : IsTrans {other // other ∈ all} fun a b => Overtakes a.1 b.1 :=
    ⟨fun _ _ _ first second => first.trans second⟩
  have irreflexive : Std.Irrefl fun a b : {other // other ∈ all} => Overtakes a.1 b.1 :=
    ⟨fun _ both => List.lt_irrefl _ both.later⟩
  have finite : Finite {other // other ∈ all} := (List.finite_toSet all).to_subtype
  have founded := Finite.wellFounded_of_trans_of_irrefl fun a b : {other // other ∈ all} => Overtakes a.1 b.1
  obtain ⟨newer, member, overtakes⟩ := doomed
  obtain ⟨⟨last, inside⟩, yields, none⟩ :=
    founded.has_min {other | Overtakes other.1 key} ⟨⟨newer, member⟩, overtakes⟩
  refine ⟨last, inside, yields, ?_⟩
  rintro ⟨next, own, later⟩
  exact none ⟨next, own⟩ (later.trans yields) later

theorem Standing.outcome {submissions : List Submission} (h : Standing (keysOf submissions) submissions t)
    (distinct : Distinct submissions) : Outcome (keysOf submissions) t := by
  have distinct_ids := (distinct.coherent (fun _ own => own) h.valid).ids
  have held : ∀ key ∈ keysOf submissions, ¬ Doomed (keysOf submissions) key → Spooled t key := fun key own live =>
    (h.calm.arrived key own).resolve_right (h.consistent.live own live)
  refine ⟨fun key own live => ?_, fun name present => ?_, fun key own doomed => ?_⟩
  · obtain ⟨job, read, id, own'⟩ := read_queued h.consistent (held key own live)
    exact ⟨job, read, distinct_ids _ own' key own id⟩
  · obtain ⟨file, found⟩ := Option.isSome_iff_exists.mp present
    obtain ⟨job, _, _, own, named⟩ := h.consistent.files _ file found
    refine ⟨jobKey job, own, fun doomed => ?_, named⟩
    obtain ⟨newer, among, overtakes, live⟩ := doomed_by_standing doomed
    have retired := h.calm.resolved _ own newer among overtakes live
    have absent : t.get (.queue .spool name) = none := named ▸ retired.absent
    rw [absent] at found
    cases found
  · obtain ⟨newer, among, overtakes, live⟩ := doomed_by_standing doomed
    exact h.calm.resolved key own newer among overtakes live

theorem standing_empty (all : List JobKey) : Standing all [] ∅ := by
  refine ⟨⟨fun path file held => ?_, fun key none => absurd none List.not_mem_nil⟩,
    ⟨fun key none => absurd none List.not_mem_nil, fun key none => absurd none List.not_mem_nil⟩,
    fun group none => absurd none List.not_mem_nil⟩
  rw [Files.get_empty] at held
  cases held

theorem Outcome.congr {more : List JobKey} (h : Outcome all t) (same : ∀ key, key ∈ all ↔ key ∈ more) :
    Outcome more t := by
  have doomed : ∀ key, Doomed all key ↔ Doomed more key := fun key => by simp only [Doomed, same]
  refine ⟨fun key own live => ?_, fun name present => ?_, fun key own overtaken => ?_⟩
  · exact h.held key ((same key).mpr own) (mt (doomed key).mp live)
  · obtain ⟨key, own, live, named⟩ := h.only name present
    exact ⟨key, (same key).mp own, mt (doomed key).mpr live, named⟩
  · exact h.cancelled key ((same key).mpr own) ((doomed key).mpr overtaken)

theorem Outcome.spool (h : Outcome all t) (name : Bytes) :
    (t.get (.queue .spool name)).isSome ↔ ∃ key ∈ all, ¬ Doomed all key ∧ name = ini key.job_id := by
  refine ⟨h.only name, ?_⟩
  rintro ⟨key, own, live, rfl⟩
  obtain ⟨job, read, _⟩ := h.held key own live
  obtain ⟨file, held, _⟩ := Files.readAs_some.mp read
  exact Option.isSome_iff_exists.mpr ⟨file, held⟩

theorem Outcome.retired (h : Outcome all t) {key : JobKey} (own : key ∈ all) : Retired t key ↔ Doomed all key := by
  refine ⟨fun held => ?_, h.cancelled key own⟩
  by_contra live
  have present := (h.spool _).mpr ⟨key, own, live, rfl⟩
  rw [held.absent] at present
  cases present

/-- Whatever order the submissions come in, the queue ends with the jobs no newer group of their
branch cancels, and every other job with a Cancelled record. -/
theorem superseded_in_any_order (calls : List (Host × Submission)) (t : Files) (distinct : Distinct (calls.map Prod.snd))
    (fits : ∀ call ∈ calls, call.2.Fits) (accepted : Accepted calls ∅ t) :
    Outcome (keysOf (calls.map Prod.snd)) t ∧ ∀ other u, (other.map Prod.snd).Perm (calls.map Prod.snd) →
      Accepted other ∅ u → (∀ name, (t.get (.queue .spool name)).isSome ↔ (u.get (.queue .spool name)).isSome)
        ∧ ∀ key ∈ keysOf (calls.map Prod.snd), Retired t key ↔ Retired u key := by
  have ends : ∀ (run : List (Host × Submission)) (u : Files), Distinct (run.map Prod.snd) →
      (∀ call ∈ run, call.2.Fits) → Accepted run ∅ u → Outcome (keysOf (run.map Prod.snd)) u := by
    intro run u distinct fits accepted
    have standing := (standing_empty (keysOf (run.map Prod.snd))).run distinct (fun _ own => own) fits accepted
    exact standing.outcome distinct
  have mine := ends calls t distinct fits accepted
  refine ⟨mine, fun other u perm run => ?_⟩
  have fits' : ∀ call ∈ other, call.2.Fits := by
    intro call member
    obtain ⟨same, inside, equal⟩ := List.mem_map.mp (perm.mem_iff.mp (List.mem_map_of_mem member))
    exact equal ▸ fits same inside
  have again := ends other u ((perm.flatMap_right _).nodup_iff.mpr distinct) fits' run
  have theirs : Outcome (keysOf (calls.map Prod.snd)) u := again.congr fun key => (perm.flatMap_right Submission.keys).mem_iff
  refine ⟨fun name => ?_, fun key own => ?_⟩
  · rw [mine.spool, theirs.spool]
  · rw [mine.retired own, theirs.retired own]

theorem returns_exec {α : Type} {p : Op α} {a : α} (h : (p.exec s).1.toOption = some a) :
    p.Returns s a (p.exec s).2 := by
  unfold Returns
  cases outcome : p.exec s with
  | mk result u =>
    rw [outcome] at h
    cases result with
    | ok b => simpa [Except.toOption] using h
    | error error => cases h

def quietHost : Host where
  now := 100
  millis := 0
  token := List.replicate 32 'a'.toUInt8
  order names := names
  order_perm := fun _ => .refl _

def branchJob (id ref : Bytes) (auto_cancel : Bool) : CiJobRequest :=
  { job_id := id, project_name := ascii "p", ref, commit_id := List.replicate 40 'a'.toUInt8
    client_id := ascii "c", auto_cancel }

/-- A job, and a newer one of the same ref with auto_cancel set. -/
def twoCalls (ref : Bytes) : List (Host × Submission) :=
  [(quietHost, .legacy (branchJob (ascii "1") ref false) rfl), (quietHost, .legacy (branchJob (ascii "2") ref true) rfl)]

def afterFirst (ref : Bytes) : Files := ((enqueueCiJob quietHost (branchJob (ascii "1") ref false)).exec ∅).2

def afterBoth (ref : Bytes) : Files := ((enqueueCiJob quietHost (branchJob (ascii "2") ref true)).exec (afterFirst ref)).2

private theorem two_accepted {ref : Bytes}
    (first : ((enqueueCiJob quietHost (branchJob (ascii "1") ref false)).exec ∅).1.toOption = some ())
    (second : ((enqueueCiJob quietHost (branchJob (ascii "2") ref true)).exec (afterFirst ref)).1.toOption = some ()) :
    Accepted (twoCalls ref) ∅ (afterBoth ref) :=
  ⟨afterFirst ref, returns_exec first, afterBoth ref, returns_exec second, rfl⟩

private theorem two_distinct (ref : Bytes) : Distinct ((twoCalls ref).map Prod.snd) := by
  show [ascii "1", ascii "2"].Nodup
  decide

def mainRef : Bytes := ascii "refs/heads/main"

def longRef : Bytes := ascii "refs/heads/" ++ List.replicate 502 'a'.toUInt8

private theorem main_table :
    ((enqueueCiJob quietHost (branchJob (ascii "1") mainRef false)).exec ∅).1.toOption = some ()
    ∧ ((enqueueCiJob quietHost (branchJob (ascii "2") mainRef true)).exec (afterFirst mainRef)).1.toOption = some () := by
  decide +kernel

private theorem long_table :
    ((enqueueCiJob quietHost (branchJob (ascii "1") longRef false)).exec ∅).1.toOption = some ()
    ∧ ((enqueueCiJob quietHost (branchJob (ascii "2") longRef true)).exec (afterFirst longRef)).1.toOption = some ()
    ∧ ((afterBoth longRef).get (.queue .spool (ini (ascii "1")))).isSome = true := by
  decide +kernel

theorem superseded_in_any_order_main : Outcome (keysOf ((twoCalls mainRef).map Prod.snd)) (afterBoth mainRef) :=
  (superseded_in_any_order (twoCalls mainRef) (afterBoth mainRef) (two_distinct mainRef)
    (fun call member => by
      have refs : mainRef.length ≤ 512 := by decide
      have first : 1 ≤ (1 : UInt32).toNat ∧ (1 : UInt32).toNat ≤ 1000 := by decide
      rcases List.mem_cons.mp member with rfl | member
      · exact ⟨refs, first⟩
      · obtain rfl := List.mem_singleton.mp member
        exact ⟨refs, first⟩)
    (two_accepted main_table.1 main_table.2)).1

/-- Two jobs of a branch whose ref has 513 bytes: neither file can be read back, and both stay queued. -/
theorem long_refs_stay_queued : ¬ ∀ (calls : List (Host × Submission)) (t : Files), Distinct (calls.map Prod.snd) →
    Accepted calls ∅ t → Outcome (keysOf (calls.map Prod.snd)) t := by
  intro all
  have outcome := all (twoCalls longRef) (afterBoth longRef) (two_distinct longRef)
    (two_accepted long_table.1 long_table.2.1)
  have doomed : Doomed (keysOf ((twoCalls longRef).map Prod.snd)) (jobKey (branchJob (ascii "1") longRef false)) :=
    ⟨jobKey (branchJob (ascii "2") longRef true), by simp [twoCalls, keysOf, Submission.keys],
      by unfold OnBranch; decide +kernel, rfl, rfl, by decide, rfl⟩
  have absent := (outcome.cancelled _ (by simp [twoCalls, keysOf, Submission.keys]) doomed).absent
  have held : ((afterBoth longRef).get (.queue .spool (ini (ascii "1")))).isSome = true := long_table.2.2
  have none : (afterBoth longRef).get (.queue .spool (ini (ascii "1"))) = none := absent
  rw [none] at held
  cases held

end CkGit.Store
