import CkGit.Store.Superseding

/-!
The parts of enqueueCiJob and reconcileWorkflowGroups as steps: writing a
record, cancelling a queued job, marking a workflow, and the pass of
supersedeCiJobs over the spool.
-/
namespace CkGit.Store
open CkGit.Base CkGit.Ci Prog
open CkGit.Workflow (queuedRecord previewRecord)

variable {all keys : List JobKey} {groups : List WorkflowGroup} {s t u : Files} {host : Host} {r : Unit}

/-- A submitted job whose records can be read back. -/
structure Admitted (keys : List JobKey) (job : CiJobRequest) : Prop where
  own : jobKey job ∈ keys
  ref_short : job.ref.length ≤ 512
  attempt_range : 1 ≤ job.attempt.toNat ∧ job.attempt.toNat ≤ 1000

theorem ensureRunDir_same {project id : Bytes} (run : (ensureRunDir host project id).Returns s r t) :
    ∀ path, Watched path → t.get path = s.get path := by
  simp only [ensureRunDir, writeFile, returns_bind, returns_gets, returns_whenever, returns_modify] at run
  obtain ⟨_, _, ⟨rfl, rfl⟩, ⟨_, rfl⟩ | ⟨_, rfl⟩⟩ := run
  · intro path watched
    apply Files.get_put_ne
    rintro rfl
    simp [Watched] at watched
  · exact fun _ _ => rfl

theorem prepareCiRunDirectory_same {project id : Bytes}
    (run : (prepareCiRunDirectory host project id).Returns s r t) : ∀ path, Watched path → t.get path = s.get path := by
  simp only [prepareCiRunDirectory, returns_bind, returns_ofExcept] at run
  obtain ⟨_, _, ⟨_, rfl⟩, _, _, ⟨_, rfl⟩, made⟩ := run
  exact ensureRunDir_same made

theorem writeCiRunRecord_returns {record : CiRunRecord} (run : (writeCiRunRecord host record).Returns s r t) :
    ∃ text, ∃ v : Files, runRecordText record = .ok text ∧ (∀ path, Watched path → v.get path = s.get path)
      ∧ t = v.put (.run record.project_name record.run_id .record) ⟨text, host.millis⟩ := by
  simp only [writeCiRunRecord, writeFile, returns_bind, returns_ofExcept, returns_modify] at run
  obtain ⟨text, _, ⟨written, rfl⟩, _, v, made, rfl⟩ := run
  exact ⟨text, v, written, ensureRunDir_same made, rfl⟩

/-- A record that fits is read back once it is written. -/
theorem written_loads {record : CiRunRecord} {text : Bytes} {modified : Int} (written : runRecordText record = .ok text)
    (fits : RunFits record) : loadCiRun (s.put (.run record.project_name record.run_id .record) ⟨text, modified⟩)
      record.project_name record.run_id = some record := by
  have readable := written_readable written fits
  have parsed := parseRun_serializeRun readable
  rw [← written_text written] at parsed
  have small : text.length ≤ kMaximumCiRunRecordBytes := by
    have same := written_text written
    simp only [runRecordText, bind_ok, failIf, rejectIf_ok, Nat.not_lt] at written
    obtain ⟨_, _, _, _, _, fits, _⟩ := written
    exact same ▸ fits
  rw [loadCiRun, if_pos ⟨readable.project_valid, readable.id_valid⟩]
  exact Files.readAs_some.mpr ⟨_, Files.get_put_self, small, parsed⟩

theorem loaded_readable {project id : Bytes} {record : CiRunRecord} (loaded : loadCiRun s project id = some record) :
    ReadableRun record := by
  unfold loadCiRun at loaded
  split at loaded
  · obtain ⟨_, _, _, parsed⟩ := Files.readAs_some.mp loaded
    exact parseRun_readable parsed
  · cases loaded

theorem queuedRecord_fits {job : CiJobRequest} (ref : job.ref.length ≤ 512)
    (attempt : 1 ≤ job.attempt.toNat ∧ job.attempt.toNat ≤ 1000) : RunFits (queuedRecord job) :=
  ⟨ref, attempt, .inl rfl, Nat.zero_le _, fun _ inside => absurd inside List.not_mem_nil⟩

theorem settledRecord_fits {job : CiJobRequest} {detail : Bytes} {terminal : CiRunStatus} (h : Admitted keys job) :
    RunFits (settledRecord host s job detail terminal) := by
  have base : RunFits ((loadCiRun s job.project_name job.job_id).getD (queuedRecord job)) := by
    cases loaded : loadCiRun s job.project_name job.job_id with
    | none => exact queuedRecord_fits h.ref_short h.attempt_range
    | some record =>
      have readable := loaded_readable loaded
      exact ⟨readable.ref_short, readable.attempt_range, readable.runner_valid, readable.steps_few,
        readable.names_short⟩
  obtain ⟨_, _, runner, steps, names⟩ := base
  exact ⟨h.ref_short, h.attempt_range, runner, steps, names⟩

/-- The record of a job that is not retired is written with an active status. -/
theorem Consistent.record (h : Consistent all keys groups s) (coherent : Coherent all keys groups) {job : CiJobRequest}
    (own : jobKey job ∈ keys) {text : Bytes} {modified : Int}
    (live : ¬ Retired s (jobKey job))
    (active : ∀ record, loadCiRun (s.put (.run job.project_name job.job_id .record) ⟨text, modified⟩)
      job.project_name job.job_id = some record → ciRunStatusIsActive record.status) :
    Step all keys groups s (s.put (.run job.project_name job.job_id .record) ⟨text, modified⟩) := by
  refine h.put (.inl ⟨jobKey job, own, rfl⟩) (fun _ other => by cases other) fun key member touched => ?_
  rcases touched with other | same
  · cases other
  · obtain rfl := coherent.ids (jobKey job) own key member (by injection same)
    refine .stay live (fun queued => ?_) active
    rwa [Spooled, Files.get_put_ne (by simp)]

theorem cancelQueuedJob_retires (h : Consistent all keys groups s) (coherent : Coherent all keys groups)
    {job : CiJobRequest} {detail : Bytes} (admitted : Admitted keys job) (doomed : Doomed all (jobKey job))
    (run : (cancelQueuedJob host job detail .cancelled).Returns s r t) :
    Step all keys groups s t ∧ Retired t (jobKey job) := by
  simp only [cancelQueuedJob, unlink, returns_bind, returns_gets, returns_modify] at run
  obtain ⟨record, _, ⟨rfl, rfl⟩, _, v, prepared, _, w, recorded, rfl⟩ := run
  obtain ⟨text, x, written, made, rfl⟩ := writeCiRunRecord_returns recorded
  have same : ∀ path, Watched path → x.get path = s.get path := fun path watched =>
    (made path watched).trans (prepareCiRunDirectory_same prepared path watched)
  have read : loadCiRun (x.put (.run job.project_name job.job_id .record) ⟨text, host.millis⟩) job.project_name
      job.job_id = some (settledRecord host s job detail .cancelled) :=
    written_loads written (settledRecord_fits admitted)
  change Step all keys groups s ((x.put (.run job.project_name job.job_id .record) ⟨text, host.millis⟩).remove
    (.queue .spool (ini job.job_id))) ∧ Retired ((x.put (.run job.project_name job.job_id .record)
    ⟨text, host.millis⟩).remove (.queue .spool (ini job.job_id))) (jobKey job)
  generalize after : (x.put (.run job.project_name job.job_id .record) ⟨text, host.millis⟩).remove
    (.queue .spool (ini job.job_id)) = t
  have retired : Retired t (jobKey job) := by
    subst after
    refine ⟨Files.get_remove_self, _, (loadCiRun_same (Files.get_remove_ne (by simp))).trans read, rfl⟩
  refine ⟨⟨h.advance (fun path file held => ?_) fun key own => ?_, fun name => ?_⟩, retired⟩
  · subst after
    rw [Files.get_remove] at held
    split at held
    · cases held
    · rw [Files.get_put] at held
      split at held
      · next is_record =>
        subst is_record
        exact .inl ⟨jobKey job, admitted.own, rfl⟩
      · exact h.allowed (same path) held
  · by_cases mine : key.job_id = job.job_id
    · obtain rfl := coherent.ids key own (jobKey job) admitted.own mine
      exact .retire doomed retired
    · subst after
      have spool : Path.queue .spool (ini key.job_id) ≠ .queue .spool (ini job.job_id) := fun equal =>
        mine (ini_injective (by injection equal))
      have record : Path.run key.project_name key.job_id .record ≠ .run job.project_name job.job_id .record := fun equal =>
        mine (by injection equal)
      refine .same ?_ ?_
      · rw [Files.get_remove_ne spool, Files.get_put_ne (by simp), same _ watched_queue]
      · rw [Files.get_remove_ne (by simp), Files.get_put_ne record, same _ watched_record]
  · subst after
    rw [Files.get_remove_ne (by simp), Files.get_put_ne (by simp), same _ watched_queue]

theorem requestCiCancel_step (h : Consistent all keys groups s) {project id : Bytes} {b : Bool}
    (marks : ∃ group ∈ groups, group.parent.job_id = id ∧ ∀ key ∈ keys, key.parent_run_id = id → Doomed all key)
    (run : (requestCiCancel host project id).Returns s b t) : Step all keys groups s t := by
  simp only [requestCiCancel, returns_bind, returns_ofExcept, returns_gets] at run
  obtain ⟨_, _, ⟨_, rfl⟩, _, _, ⟨rfl, rfl⟩, run⟩ := run
  split at run
  · obtain ⟨_, rfl⟩ := returns_pure.mp run
    exact .refl h
  · simp only [writeFile, returns_bind, returns_reads, returns_whenever, returns_modify, returns_pure] at run
    obtain ⟨_, _, ⟨_, rfl⟩, _, _, ⟨_, rfl⟩ | ⟨_, rfl⟩, _, rfl⟩ := run
    · exact h.put marks (fun _ other => by cases other) fun key _ touched => by rcases touched with no | no <;> cases no
    · exact .refl h

theorem read_queued (h : Consistent all keys groups s) {key : JobKey} (queued : Spooled s key) :
    ∃ old, readJobAt s .spool (ini key.job_id) = some old ∧ old.job_id = key.job_id ∧ jobKey old ∈ keys := by
  obtain ⟨file, held⟩ := Option.isSome_iff_exists.mp queued
  obtain ⟨old, small, parsed, own, name⟩ := h.files _ file held
  exact ⟨old, Files.readAs_some.mpr ⟨file, held, small, parsed⟩, (ini_injective name).symm, own⟩

theorem read_admitted (h : Consistent all keys groups s) {name : Bytes} {old : CiJobRequest}
    (read : readJobAt s .spool name = some old) : Admitted keys old ∧ name = ini old.job_id := by
  obtain ⟨file, held, _, parsed⟩ := Files.readAs_some.mp read
  obtain ⟨job, _, again, own, named⟩ := h.files _ file held
  obtain rfl := Except.ok.inj (again.symm.trans parsed)
  have readable := (parseJob_readable parsed).1
  exact ⟨⟨own, readable.ref_short, readable.attempt_range⟩, named⟩

theorem working_empty (h : Consistent all keys groups s) (name : Bytes) : readJobAt s .working name = none := by
  cases read : readJobAt s .working name with
  | none => rfl
  | some job =>
    obtain ⟨file, held, _⟩ := Files.readAs_some.mp read
    exact (h.files _ file held).elim

/-- A workflow one of whose children is overtaken is overtaken as a whole. -/
theorem siblings_doomed (coherent : Coherent all keys groups) {old newer : JobKey} (own : old ∈ keys)
    (child : old.parent_run_id ≠ []) (member : newer ∈ all) (overtakes : Overtakes newer old) :
    ∃ group ∈ groups, group.parent.job_id = old.parent_run_id
      ∧ ∀ key ∈ keys, key.parent_run_id = old.parent_run_id → Doomed all key := by
  obtain ⟨group, inside, parent⟩ := coherent.owner old own child
  refine ⟨group, inside, parent, fun key other sibling => ⟨newer, member, ?_⟩⟩
  obtain ⟨project, ref⟩ := coherent.kin group inside old own parent.symm
  obtain ⟨project', ref'⟩ := coherent.kin group inside key other (sibling.trans parent.symm)
  have group_same : key.group = old.group := by simp [JobKey.group, sibling, child]
  obtain ⟨branch, same_project, same_ref, later, policy⟩ := overtakes
  refine ⟨ref'.trans ref.symm ▸ branch, ?_, ?_, group_same ▸ later, policy⟩
  · rw [same_project, project, project']
  · rw [same_ref, ref, ref']

/-- The request against one other job of its branch: the older of two groups yields to auto_cancel. -/
theorem supersedeJob_retires (h : Consistent all keys groups s) (coherent : Coherent all keys groups)
    {request old : CiJobRequest} (mine : Admitted keys request) (other : Admitted keys old)
    (branch : OnBranch request.ref) (same : sameRef old request) (apart : jobGroup old ≠ jobGroup request)
    (run : (supersedeJob host request .spool old).Returns s r t) :
    Step all keys groups s t ∧ (Overtakes (jobKey request) (jobKey old) → Retired t (jobKey old))
      ∧ (Overtakes (jobKey old) (jobKey request) → Retired t (jobKey request)) := by
  have yields : request.auto_cancel = true → jobGroup old < jobGroup request →
      Overtakes (jobKey request) (jobKey old) := fun policy later =>
    ⟨show OnBranch old.ref from same.2 ▸ branch, same.1.symm, same.2.symm, later, policy⟩
  simp only [supersedeJob, returns_bind, returns_whenever, returns_pure] at run
  obtain ⟨_, v, marked, run⟩ := run
  have first : Step all keys groups s v := by
    obtain ⟨⟨policy, later, child⟩, _, w, asked, _, rfl⟩ | ⟨_, rfl⟩ := marked
    · refine requestCiCancel_step h ?_ asked
      exact siblings_doomed coherent other.own (fun none => child (by simpa [jobKey] using none))
        (coherent.within _ mine.own) (yields policy later)
    · exact .refl h
  split at run
  · next older =>
    obtain ⟨policy, cancelled⟩ | ⟨lenient, rfl⟩ := returns_whenever.mp run
    · have overtaken : Overtakes (jobKey old) (jobKey request) := ⟨branch, same.1, same.2, older, policy⟩
      obtain ⟨second, retired⟩ := cancelQueuedJob_retires first.consistent coherent mine
        ⟨jobKey old, coherent.within _ other.own, overtaken⟩ cancelled
      exact ⟨first.trans second, fun both => absurd both.later (List.lt_asymm older), fun _ => retired⟩
    · exact ⟨first, fun both => absurd both.later (List.lt_asymm older), fun both => absurd both.policy lenient⟩
  · next newer =>
    split at run
    · next lenient =>
      obtain ⟨_, rfl⟩ := returns_pure.mp run
      exact ⟨first, fun both => absurd both.policy lenient, fun both => absurd both.later newer⟩
    · next policy =>
      rw [if_pos trivial] at run
      have auto : request.auto_cancel = true := by simpa using policy
      have later : jobGroup old < jobGroup request := by
        by_contra no
        exact apart (List.le_antisymm newer no)
      have overtaken := yields auto later
      obtain ⟨second, retired⟩ := cancelQueuedJob_retires first.consistent coherent other
        ⟨jobKey request, coherent.within _ mine.own, overtaken⟩ run
      exact ⟨first.trans second, fun _ => retired, fun both => absurd both.later newer⟩

/-- What the pass has settled at one file: whoever of the two is older is retired. -/
structure Settles (all keys : List JobKey) (request : JobKey) (s : Files) (name : Bytes) (t : Files) : Prop where
  older : ∀ key ∈ keys, name = ini key.job_id → Arrived s key → Overtakes request key → Retired t key
  newer : ∀ key ∈ keys, name = ini key.job_id → Arrived s key → ¬ Doomed all key → Overtakes key request →
    Retired t request

theorem Settles.step {request : JobKey} {name : Bytes} (h : Settles all keys request s name t)
    (own : request ∈ keys) (step : Step all keys groups t u) : Settles all keys request s name u :=
  ⟨fun key member here came overtakes => step.retired key member (h.older key member here came overtakes),
    fun key member here came live overtakes => step.retired request own (h.newer key member here came live overtakes)⟩

theorem supersedeEntry_settles {origin : Files} (h : Consistent all keys groups s) (coherent : Coherent all keys groups)
    {request : CiJobRequest} {name : Bytes} (mine : Admitted keys request) (branch : OnBranch request.ref)
    (since : Step all keys groups origin s) (run : (supersedeEntry host request .spool name).Returns s r t) :
    Step all keys groups s t ∧ Settles all keys (jobKey request) origin name t := by
  simp only [supersedeEntry, returns_bind, returns_gets] at run
  obtain ⟨read, _, ⟨found, rfl⟩, run⟩ := run
  have present : ∀ key ∈ keys, name = ini key.job_id → Arrived origin key → Retired s key ∨ Spooled s key :=
    fun key own _ came => (since.arrived key own came).symm
  cases read with
  | none =>
    obtain ⟨_, rfl⟩ := returns_pure.mp run
    have gone : ∀ key ∈ keys, name = ini key.job_id → Arrived origin key → Retired s key := by
      intro key own here came
      refine (present key own here came).resolve_right fun queued => ?_
      obtain ⟨old, again, _⟩ := read_queued h queued
      rw [← here, found] at again
      cases again
    refine ⟨.refl h, fun key own here came _ => gone key own here came, fun key own here came live _ => ?_⟩
    obtain ⟨_, record, loaded, status⟩ := gone key own here came
    rcases h.settled key own record loaded with active | ⟨doomed, _⟩
    · rw [status] at active
      exact absurd active (by decide)
    · exact absurd doomed live
  | some old =>
    obtain ⟨other, named⟩ := read_admitted h found
    have holder : ∀ key ∈ keys, name = ini key.job_id → key = jobKey old := fun key own here =>
      coherent.ids key own (jobKey old) other.own (ini_injective (here.symm.trans named))
    have apart : ∀ {one two : JobKey}, Overtakes one two → one.group ≠ two.group := fun both same =>
      List.lt_irrefl _ (same ▸ both.later)
    simp only [returns_whenever] at run
    obtain ⟨⟨same, _, groups_apart⟩, superseded⟩ | ⟨spared, rfl⟩ := run
    · obtain ⟨step, older, newer⟩ := supersedeJob_retires h coherent mine other branch same groups_apart superseded
      refine ⟨step, fun key own here _ overtakes => ?_, fun key own here _ _ overtakes => ?_⟩
      · obtain rfl := holder key own here
        exact older overtakes
      · obtain rfl := holder key own here
        exact newer overtakes
    · refine ⟨.refl h, fun key own here _ overtakes => (spared ⟨?_, ?_, ?_⟩).elim,
        fun key own here _ _ overtakes => (spared ⟨?_, ?_, ?_⟩).elim⟩
      all_goals obtain rfl := holder key own here
      · exact ⟨overtakes.project.symm, overtakes.ref.symm⟩
      · exact fun same => apart overtakes (by rw [coherent.ids _ mine.own _ other.own same.symm])
      · exact fun same => apart overtakes same.symm
      · exact ⟨overtakes.project, overtakes.ref⟩
      · exact fun same => apart overtakes (by rw [coherent.ids _ other.own _ mine.own same])
      · exact fun same => apart overtakes same

end CkGit.Store
