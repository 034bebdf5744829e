import CkGit.Store.Groups
import CkGit.Store.Retiring

/-!
The pass of supersedeCiJobs as a whole, and reconcileWorkflowGroups: the journal
of a group brings all its children, and takes none away.
-/
namespace CkGit.Store
open CkGit.Base CkGit.Ci Prog
open CkGit.Workflow (queuedRecord previewRecord)

variable {all keys : List JobKey} {groups : List WorkflowGroup} {s t u : Files} {host : Host} {r : Unit}

/-- A job behind its parser. -/
structure Read (original job : CiJobRequest) : Prop where
  key : jobKey job = jobKey original
  readable : ReadableJob job
  few : job.runs_on.length ≤ kMaximumCiLabels

theorem parsed_read {original job : CiJobRequest} (parsed : parseJob (serializeJob original) = .ok job) :
    Read original job := by
  obtain ⟨same, _⟩ := serialized_same parsed
  obtain ⟨readable, sorted⟩ := parseJob_readable parsed
  have labels : sortedUnique job.runs_on = job.runs_on := congrArg CiJobRequest.runs_on sorted
  refine ⟨?_, readable, labels ▸ readable.labels_few⟩
  rw [same]
  rfl

theorem parseGroupJob_read {key : String} {original job : CiJobRequest}
    (parsed : parseGroupJob key (ascii key ++ hexEncode (serializeJob original)) = .ok job) : Read original job := by
  simp only [parseGroupJob, field_append, bind_ok, Except.ok.injEq, exists_eq_left'] at parsed
  obtain ⟨bytes, decoded, parsed⟩ := parsed
  obtain rfl := hexDecode_same (orFail_ok.mp decoded)
  exact parsed_read parsed

theorem groupLines_clean (group : WorkflowGroup) : ∀ line ∈ groupLines group, newline ∉ line := by
  intro line inside
  simp only [groupLines, List.mem_cons, List.mem_map] at inside
  rcases inside with rfl | rfl | ⟨child, _, rfl⟩
  · decide
  · exact key_clean (by decide) (hexEncode_avoids _).1
  · exact key_clean (by decide) (hexEncode_avoids _).1

theorem serialized_text {group : WorkflowGroup} {bytes : Bytes} (text : serializeWorkflowGroup group = .ok bytes) :
    bytes = framed (groupLines group) := by
  simp only [serializeWorkflowGroup, bind_ok, pure_ok] at text
  obtain ⟨_, _, rfl⟩ := text
  rfl

/-- A journal reads as the group it was written for, up to the order of labels. -/
theorem journal_read {group read : WorkflowGroup} {bytes : Bytes} (text : serializeWorkflowGroup group = .ok bytes)
    (parsed : parseWorkflowGroup bytes = .ok read) :
    Read group.parent read.parent ∧ List.Forall₂ Read group.children read.children := by
  rw [serialized_text text] at parsed
  simp only [parseWorkflowGroup, frameLines_framed (by simp [groupLines]) (groupLines_clean group), bind_ok, pure_ok,
    Except.ok.injEq, exists_eq_left'] at parsed
  obtain ⟨_, _, parent, parentRead, children, childrenRead, _, _, rfl⟩ := parsed
  refine ⟨parseGroupJob_read parentRead, ?_⟩
  have each := mapM_ok childrenRead
  simp only [groupLines, List.drop_succ_cons, List.drop_zero, List.forall₂_map_left_iff] at each
  exact each.imp fun _ _ => parseGroupJob_read

theorem parent_filled {group : WorkflowGroup} (valid : validateWorkflowGroup group = .ok ()) :
    group.parent.job_id ≠ [] := by
  obtain ⟨⟨read, parsed⟩, _⟩ := validated valid
  have found := parsed_read parsed
  have same : read.job_id = group.parent.job_id := congrArg JobKey.job_id found.key
  exact same ▸ isValidCiId_nonempty found.readable.id_valid

theorem forall₂_right {α β : Type} {related : α → β → Prop} {left : List α} {right : List β}
    (h : List.Forall₂ related left right) : ∀ b ∈ right, ∃ a ∈ left, related a b := by
  induction h with
  | nil => simp
  | cons first _ ih =>
    rintro b (_ | ⟨_, later⟩)
    · exact ⟨_, List.mem_cons_self, first⟩
    · obtain ⟨a, inside, held⟩ := ih b later
      exact ⟨a, List.mem_cons_of_mem _ inside, held⟩

theorem capped_some {path : Path} {cap : Nat} {bytes : Bytes} (read : s.readCapped path cap = .ok (some bytes)) :
    ∃ file, s.get path = some file ∧ file.bytes = bytes := by
  unfold Files.readCapped at read
  split at read
  · cases read
  · next file held =>
    split at read
    · cases read
    · exact ⟨file, held, by simpa using read⟩

theorem unpublished_group (h : Consistent all keys groups s) {parents : List CiJobRequest} {parent : CiJobRequest}
    (listed : listCiUnpublishedWorkflows s = .ok parents) (member : parent ∈ parents) :
    ∃ group ∈ groups, jobKey parent = jobKey group.parent := by
  simp only [listCiUnpublishedWorkflows, bind_ok, pure_ok] at listed
  obtain ⟨found, mapped, rfl⟩ := listed
  obtain ⟨entry, inside, rfl⟩ := List.mem_filterMap.mp member
  obtain ⟨⟨project, id⟩, _, unpublished⟩ := forall₂_right (mapM_ok mapped) _ inside
  unfold unpublishedWorkflow at unpublished
  split at unpublished
  · cases unpublished
  · simp only [bind_ok] at unpublished
    obtain ⟨committed, _, unpublished⟩ := unpublished
    split at unpublished
    · cases unpublished
    · simp only [bind_ok] at unpublished
      obtain ⟨held, held_read, unpublished⟩ := unpublished
      split at unpublished
      · cases unpublished
      · next bytes =>
        simp only [bind_ok, pure_ok, Option.some.injEq] at unpublished
        obtain ⟨group, parsed, _, _, rfl⟩ := unpublished
        obtain ⟨file, present, rfl⟩ := capped_some held_read
        obtain ⟨original, own, text, _⟩ := h.files _ file present
        exact ⟨original, own, (journal_read text parsed).1.key⟩

theorem cancelUnpublished_step (h : Consistent all keys groups s) (coherent : Coherent all keys groups)
    {request : CiJobRequest} (mine : Admitted keys request) (branch : OnBranch request.ref)
    (policy : request.auto_cancel = true) (run : (cancelUnpublished host request).Returns s r t) :
    Step all keys groups s t := by
  simp only [cancelUnpublished, returns_bind, returns_reads] at run
  obtain ⟨parents, _, ⟨listed, rfl⟩, run⟩ := run
  refine (run.forEach (Step all keys groups s) (fun _ _ => True) (.refl h) fun parent member _ u v since run => ?_).1
  refine ⟨since.trans ?_, trivial, fun _ _ => trivial⟩
  simp only [returns_whenever, returns_bind, returns_pure] at run
  obtain ⟨⟨same, older⟩, _, _, asked, _, rfl⟩ | ⟨_, rfl⟩ := run
  · obtain ⟨group, own, key⟩ := unpublished_group h listed member
    have id : group.parent.job_id = parent.job_id := congrArg JobKey.job_id key.symm
    refine requestCiCancel_step since.consistent ⟨group, own, id, fun child inside child_of => ?_⟩ asked
    obtain ⟨project, ref⟩ := coherent.kin group own child inside (child_of.trans id.symm)
    have project' : group.parent.project_name = parent.project_name := congrArg JobKey.project_name key.symm
    have ref' : group.parent.ref = parent.ref := congrArg JobKey.ref key.symm
    have whole : child.group = parent.job_id := by
      have filled : parent.job_id ≠ [] := id ▸ parent_filled (coherent.valid group own)
      simp [JobKey.group, child_of, filled]
    refine ⟨jobKey request, coherent.within _ mine.own, ?_, ?_, ?_, whole ▸ older, policy⟩
    · rw [ref, ref', same.2]
      exact branch
    · rw [project, project', same.1]
      rfl
    · rw [ref, ref', same.2]
      rfl
  · exact .refl since.consistent

theorem mem_names {directory : Directory} {name : Bytes} (held : (s.get (.queue directory name)).isSome) :
    name ∈ s.names directory := by
  refine List.mem_filterMap.mpr ⟨.queue directory name, AList.lookup_isSome.mp held, ?_⟩
  simp

theorem isIni_ini (id : Bytes) : isIni (ini id) = true := by simp [isIni, ini]

theorem Consistent.live (h : Consistent all keys groups s) {key : JobKey} (own : key ∈ keys)
    (live : ¬ Doomed all key) : ¬ Retired s key := by
  rintro ⟨_, record, loaded, status⟩
  rcases h.settled key own record loaded with active | ⟨doomed, _⟩
  · rw [status] at active
    exact absurd active (by decide)
  · exact live doomed

/-- After the pass of a request, whoever came before and is older than the request is retired, and so is the
request when it is older than one that stays. -/
structure Passed (all keys : List JobKey) (request : JobKey) (s t : Files) : Prop where
  older : ∀ key ∈ keys, Arrived s key → Overtakes request key → Retired t key
  newer : ∀ key ∈ keys, Arrived s key → ¬ Doomed all key → Overtakes key request → Retired t request

theorem Passed.step {request : JobKey} (h : Passed all keys request s t) (own : request ∈ keys)
    (step : Advance all keys groups t u) : Passed all keys request s u :=
  ⟨fun key member came overtakes => step.retired key member (h.older key member came overtakes),
    fun key member came live overtakes => step.retired request own (h.newer key member came live overtakes)⟩

theorem Passed.since {request : JobKey} (h : Passed all keys request t u) (step : Advance all keys groups s t) :
    Passed all keys request s u :=
  ⟨fun key own came overtakes => h.older key own (step.arrived key own came) overtakes,
    fun key own came live overtakes => h.newer key own (step.arrived key own came) live overtakes⟩

theorem supersedeCiJobs_passed (h : Consistent all keys groups s) (coherent : Coherent all keys groups)
    {request : CiJobRequest} (mine : Admitted keys request) (run : (supersedeCiJobs host request).Returns s r t) :
    Step all keys groups s t ∧ Passed all keys (jobKey request) s t := by
  simp only [supersedeCiJobs, returns_whenever, returns_bind] at run
  obtain ⟨branch, _, v, unpublished, run⟩ | ⟨elsewhere, rfl⟩ := run
  · have first : Step all keys groups s v := by
      obtain ⟨policy, cancelled⟩ | ⟨_, rfl⟩ := unpublished
      · exact cancelUnpublished_step h coherent mine branch policy cancelled
      · exact .refl h
    simp only [forEach, returns_bind, returns_gets, returns_done] at run
    obtain ⟨_, w, ⟨names, _, ⟨rfl, rfl⟩, spool⟩, _, _, ⟨_, _, ⟨_, rfl⟩, working⟩, _, rfl⟩ := run
    obtain ⟨second, settled, _⟩ := spool.forEach (Step all keys groups v)
      (Settles all keys (jobKey request) v) (.refl first.consistent) fun name _ _ x y since entry => by
        obtain ⟨step, here⟩ := supersedeEntry_settles since.consistent coherent mine branch since entry
        exact ⟨since.trans step, here, fun _ held => held.step mine.own step⟩
    have third := (working.forEach (Step all keys groups w) (fun _ _ => True) (.refl second.consistent)
      fun name _ _ x y since entry => by
        simp only [supersedeEntry, returns_bind, returns_gets, working_empty since.consistent] at entry
        obtain ⟨_, _, ⟨rfl, rfl⟩, entry⟩ := entry
        obtain ⟨_, rfl⟩ := returns_pure.mp entry
        exact ⟨since, trivial, fun _ _ => trivial⟩).1
    have listed : ∀ key ∈ keys, Spooled v key → Settles all keys (jobKey request) v (ini key.job_id) w :=
      fun key _ queued => settled _ (List.mem_filter.mpr
        ⟨(host.order_perm _).mem_iff.mpr (mem_names queued), isIni_ini _⟩)
    refine ⟨(first.trans second).trans third, fun key own came overtakes => ?_, fun key own came live overtakes => ?_⟩
    · rcases first.arrived key own came with queued | retired
      · exact third.retired key own ((listed key own queued).older key own rfl (.inl queued) overtakes)
      · exact third.retired key own (second.retired key own retired)
    · rcases first.arrived key own came with queued | retired
      · exact third.retired _ mine.own ((listed key own queued).newer key own rfl (.inl queued) live overtakes)
      · exact absurd retired (first.consistent.live own live)
  · refine ⟨.refl h, fun key _ _ overtakes => (elsewhere ?_).elim,
      fun key _ _ _ overtakes => (elsewhere overtakes.branch).elim⟩
    have ref : request.ref = key.ref := overtakes.ref
    rw [ref]
    exact overtakes.branch

theorem childRecord_step (h : Consistent all keys groups s) (coherent : Coherent all keys groups)
    {parent child : CiJobRequest} {record : CiRunRecord} (mine : Admitted keys child)
    (parented : child.parent_run_id = parent.job_id) (run : (childRecord host parent child).Returns s record t) :
    Step all keys groups s t ∧ loadCiRun t child.project_name child.job_id = some record
      ∧ record.parent_run_id = child.parent_run_id := by
  simp only [childRecord, returns_bind, returns_gets] at run
  obtain ⟨_, _, ⟨found, rfl⟩, run⟩ := run
  split at run
  · next held =>
    simp only [returns_bind, returns_ofExcept, returns_pure, failIf, rejectIf_ok] at run
    obtain ⟨_, _, ⟨fine, rfl⟩, rfl, rfl⟩ := run
    have own : held.parent_run_id = parent.job_id := by_contra fun other => fine (.inl other)
    exact ⟨.refl h, found, own.trans parented.symm⟩
  · simp only [returns_bind, returns_pure] at run
    obtain ⟨_, _, recorded, rfl, rfl⟩ := run
    obtain ⟨text, v, written, same, rfl⟩ := writeCiRunRecord_returns recorded
    have first : Step all keys groups s v := h.unwatched same
    have read : loadCiRun (v.put (.run child.project_name child.job_id .record) ⟨text, host.millis⟩)
        child.project_name child.job_id = some (queuedRecord child) :=
      written_loads written (queuedRecord_fits mine.ref_short mine.attempt_range)
    have unknown : loadCiRun v child.project_name child.job_id = none :=
      (loadCiRun_same (same _ watched_record)).trans found
    refine ⟨first.trans (first.consistent.record coherent mine.own ?_ ?_), read, rfl⟩
    · rintro ⟨_, record, loaded, _⟩
      cases unknown.symm.trans loaded
    · intro record loaded
      cases read.symm.trans loaded
      rfl

theorem cancel_requested (h : Consistent all keys groups s) (coherent : Coherent all keys groups) {key : JobKey}
    {record : CiRunRecord} (own : key ∈ keys) (loaded : loadCiRun s key.project_name key.job_id = some record)
    (parented : record.parent_run_id = key.parent_run_id)
    (cancelled : isCiCancelRequested s key.project_name key.job_id = true) : Doomed all key := by
  have mark : ∀ {id : Bytes}, marked s key.project_name id .cancel 64 = .ok true →
      ∃ group ∈ groups, group.parent.job_id = id ∧ ∀ key ∈ keys, key.parent_run_id = id → Doomed all key := by
    intro id found
    unfold marked at found
    cases read : s.readCapped (.run key.project_name id .cancel) 64 with
    | error error =>
      rw [read] at found
      cases found
    | ok held =>
      cases held with
      | none =>
        rw [read] at found
        cases found
      | some bytes =>
        obtain ⟨file, present, _⟩ := capped_some read
        exact h.files _ file present
  simp only [isCiCancelRequested, Bool.and_eq_true] at cancelled
  obtain ⟨_, requested⟩ := cancelled
  have asked : ∀ {answer : Except String Bool}, answer.toOption.getD false = true → answer = .ok true := by
    rintro (_ | _ | _) yes <;> first | rfl | cases yes
  have yes := asked requested
  clear requested
  split at yes
  · obtain ⟨own_mark, found, yes⟩ := bind_ok.mp yes
    split at yes
    · next present =>
      obtain ⟨group, member, id, _⟩ := mark (present ▸ found)
      exact absurd id.symm (coherent.apart key own group member)
    · simp only [loaded] at yes
      split at yes
      · cases yes
      · obtain ⟨_, _, _, doomed⟩ := mark yes
        exact doomed key own parented.symm
  · cases yes

theorem reviveChild_step (h : Consistent all keys groups s) (coherent : Coherent all keys groups)
    {child : CiJobRequest} {record last : CiRunRecord} (mine : Admitted keys child) (readable : ReadableJob child)
    (few : child.runs_on.length ≤ kMaximumCiLabels)
    (loaded : loadCiRun s child.project_name child.job_id = some record)
    (parented : record.parent_run_id = child.parent_run_id)
    (run : (reviveChild host child record false).Returns s last t) :
    Step all keys groups s t ∧ Arrived t (jobKey child)
      ∧ loadCiRun t child.project_name child.job_id = some last := by
  unfold reviveChild at run
  split at run
  · next ended =>
    obtain ⟨rfl, rfl⟩ := returns_pure.mp run
    refine ⟨.refl h, ?_, loaded⟩
    exact .inr ((h.settled _ mine.own record loaded).resolve_left ended).2
  · next active =>
    simp only [writeFile, returns_bind, returns_gets, returns_whenever, returns_modify] at run
    obtain ⟨queued, _, ⟨found, rfl⟩, _, v, revived, cancelled, _, ⟨asked, rfl⟩, run⟩ := run
    have first : Step all keys groups s v ∧ Spooled v (jobKey child)
        ∧ loadCiRun v child.project_name child.job_id = some record := by
      obtain ⟨_, rfl⟩ | ⟨present, rfl⟩ := revived
      · have again : ReadableJob { child with attempt := record.attempt } :=
          { readable with attempt_range := (loaded_readable loaded).attempt_range }
        have fits : (serializeJob { child with attempt := record.attempt }).length ≤ kMaximumCiRunRecordBytes :=
          again.fits few
        refine ⟨h.put ⟨_, fits, parseJob_serializeJob again, mine.own, rfl⟩ (fun _ other => by cases other)
          fun key own touched => ?_, by simp [Spooled, jobKey], ?_⟩
        · rcases touched with same | other
          · obtain rfl := coherent.ids (jobKey child) mine.own key own (ini_injective (by injection same))
            refine .stay (fun ⟨_, run, held, status⟩ => ?_) (fun _ => by simp [Spooled, jobKey])
              fun run held => ?_
            · cases loaded.symm.trans held
              rw [status] at active
              exact active (by decide)
            · rw [loadCiRun_same (Files.get_put_ne (by simp))] at held
              cases loaded.symm.trans held
              exact by simpa using active
          · cases other
        · exact (loadCiRun_same (Files.get_put_ne (by simp))).trans loaded
      · refine ⟨.refl h, ?_, loaded⟩
        cases queued with
        | none => simp at present
        | some job =>
          obtain ⟨file, held, _⟩ := Files.readAs_some.mp found
          exact Option.isSome_iff_exists.mpr ⟨file, held⟩
    obtain ⟨step, spooled, kept⟩ := first
    split at run
    · next requested =>
      simp only [returns_bind, returns_gets, returns_ofExcept] at run
      obtain ⟨_, w, retiring, _, _, ⟨rfl, rfl⟩, found, rfl⟩ := run
      have doomed : Doomed all (jobKey child) :=
        cancel_requested step.consistent coherent mine.own kept parented (asked ▸ requested.2)
      obtain ⟨second, retired⟩ := cancelQueuedJob_retires step.consistent coherent mine doomed retiring
      exact ⟨step.trans second, .inr retired, orFail_ok.mp found⟩
    · obtain ⟨rfl, rfl⟩ := returns_pure.mp run
      exact ⟨step, .inl spooled, kept⟩

theorem reconcileChild_arrives (h : Consistent all keys groups s) (coherent : Coherent all keys groups)
    {parent child : CiJobRequest} {result : CiRunRecord × Bool} (mine : Admitted keys child)
    (readable : ReadableJob child) (few : child.runs_on.length ≤ kMaximumCiLabels)
    (parented : child.parent_run_id = parent.job_id) (run : (reconcileChild host parent child).Returns s result t) :
    Step all keys groups s t ∧ Arrived t (jobKey child) := by
  simp only [reconcileChild, unlink, returns_bind, returns_gets, returns_whenever, returns_modify, returns_pure] at run
  obtain ⟨record, v, recorded, held, _, ⟨free, rfl⟩, last, w, revived, _, x, removed, rfl, rfl⟩ := run
  obtain ⟨first, loaded, same⟩ := childRecord_step h coherent mine parented recorded
  rw [working_empty first.consistent] at free
  subst free
  obtain ⟨second, arrived, found⟩ := reviveChild_step first.consistent coherent mine readable few loaded same revived
  obtain ⟨⟨ended, _⟩, rfl⟩ | ⟨_, rfl⟩ := removed
  · have retired := ((second.consistent.settled _ mine.own last found).resolve_left ended).2
    have third : Step all keys groups w (w.remove (.queue .spool (ini child.job_id))) := by
      refine second.consistent.unwatched fun path _ => ?_
      rw [Files.get_remove]
      split
      · next here =>
        rw [here]
        exact retired.absent.symm
      · rfl
    exact ⟨(first.trans second).trans third, third.arrived _ mine.own arrived⟩
  · exact ⟨first.trans second, arrived⟩

theorem writeParent_step (h : Consistent all keys groups s) (coherent : Coherent all keys groups)
    {group : WorkflowGroup} {record : CiRunRecord} (own : group ∈ groups) (id : record.run_id = group.parent.job_id)
    (run : (writeCiRunRecord host record).Returns s r t) : Step all keys groups s t := by
  obtain ⟨text, v, _, same, rfl⟩ := writeCiRunRecord_returns run
  have first : Step all keys groups s v := h.unwatched same
  refine first.trans (first.consistent.put (.inr ⟨group, own, id.symm⟩) (fun _ other => by cases other) ?_)
  rintro key member (other | same)
  · cases other
  · have mine : record.run_id = key.job_id := by injection same
    exact absurd (mine.symm.trans id) (coherent.apart key member group own)

theorem publishGroup_step (h : Consistent all keys groups s) (coherent : Coherent all keys groups)
    {group : WorkflowGroup} {parent : CiJobRequest} {bytes : Bytes} (own : group ∈ groups)
    (text : serializeWorkflowGroup group = .ok bytes) (id : parent.job_id = group.parent.job_id)
    (run : (publishGroup host parent bytes).Returns s r t) : Step all keys groups s t := by
  simp only [publishGroup, writeFile, returns_bind, returns_reads] at run
  obtain ⟨_, v, prepared, existing, _, ⟨_, rfl⟩, run⟩ := run
  have first : Step all keys groups s v := h.unwatched (prepareCiRunDirectory_same prepared)
  obtain ⟨w, published, recorded, written⟩ : ∃ w : Files,
      (w = v ∨ w = v.put (.run parent.project_name parent.job_id .workflow) ⟨bytes, host.millis⟩)
        ∧ ∃ recorded : Option CiRunRecord,
          (whenever (recorded.isNone = true) (writeCiRunRecord host (queuedRecord parent))).Returns w r t := by
    split at run
    · simp only [returns_bind, returns_ofExcept, returns_gets] at run
      obtain ⟨_, _, ⟨_, rfl⟩, recorded, _, ⟨_, rfl⟩, written⟩ := run
      exact ⟨v, .inl rfl, recorded, written⟩
    · simp only [returns_bind, returns_modify, returns_gets] at run
      obtain ⟨_, w, rfl, recorded, _, ⟨_, rfl⟩, written⟩ := run
      exact ⟨_, .inr rfl, recorded, written⟩
  have second : Step all keys groups v w := by
    rcases published with rfl | rfl
    · exact .refl first.consistent
    · refine first.consistent.put ⟨group, own, text, id.symm⟩ (fun _ other => by cases other) ?_
      rintro key _ (other | other) <;> simp at other
  obtain ⟨_, written⟩ | ⟨_, rfl⟩ := returns_whenever.mp written
  · exact (first.trans second).trans (writeParent_step second.consistent coherent own id written)
  · exact first.trans second

theorem read_child (coherent : Coherent all keys groups) {group : WorkflowGroup} {original child : CiJobRequest}
    (own : group ∈ groups) (member : original ∈ group.children) (read : Read original child) :
    Admitted keys child ∧ child.parent_run_id = group.parent.job_id := by
  have formed := (validateWorkflowGroup_iff.mp (coherent.valid group own)).1
  have consistent := formed.consistent original member
  have parented : original.parent_run_id = group.parent.job_id := by_contra fun other => consistent (.inl other)
  refine ⟨⟨?_, read.readable.ref_short, read.readable.attempt_range⟩, ?_⟩
  · exact read.key ▸ coherent.children group own original member
  · exact (congrArg JobKey.parent_run_id read.key).trans parented

/-- What reconciling one journal does: its children come, and no other journal changes. -/
structure Regrouped (all keys : List JobKey) (groups : List WorkflowGroup) (file : Bytes) (s t : Files) : Prop
    extends Advance all keys groups s t where
  others : ∀ name, name ≠ file → t.get (.queue .groups name) = s.get (.queue .groups name)
  children : ∀ group ∈ groups, file = ini group.parent.job_id → (s.get (.queue .groups file)).isSome →
    ∀ child ∈ group.children, Arrived t (jobKey child)

theorem reconcileGroup_regroups (h : Consistent all keys groups s) (coherent : Coherent all keys groups) {file : Bytes}
    (run : (reconcileGroup host file).Returns s r t) : Regrouped all keys groups file s t := by
  simp only [reconcileGroup, returns_bind, returns_reads] at run
  obtain ⟨bytes, _, ⟨read, rfl⟩, run⟩ := run
  cases bytes with
  | none =>
    obtain ⟨_, rfl⟩ := returns_pure.mp run
    refine ⟨.refl h, fun _ _ => rfl, fun _ _ _ present => ?_⟩
    obtain ⟨held, found⟩ := Option.isSome_iff_exists.mp present
    simp only [Files.readCapped, found] at read
    split at read <;> cases read
  | some bytes =>
    obtain ⟨held, present, rfl⟩ := capped_some read
    obtain ⟨original, own, text, named⟩ := h.files _ held present
    simp only [returns_bind, returns_ofExcept, returns_whenever, unlink, returns_modify] at run
    obtain ⟨group, _, ⟨parsed, rfl⟩, _, _, ⟨_, rfl⟩, _, v, published, progress, w, reconciled, _, x, superseded,
      _, y, summarised, removed⟩ := run
    obtain ⟨parent, children⟩ := journal_read text parsed
    have id : group.parent.job_id = original.parent.job_id := congrArg JobKey.job_id parent.key
    have first := publishGroup_step h coherent own text id published
    have known : ∀ child ∈ group.children, ∃ job ∈ original.children, Read job child := forall₂_right children
    obtain ⟨⟨second, summary⟩, came, _⟩ := reconciled.accumulate
      (fun progress u => Step all keys groups v u ∧ progress.summary.run_id = group.parent.job_id)
      (fun child u => jobKey child ∈ keys → Arrived u (jobKey child)) ⟨.refl first.consistent, rfl⟩
      fun child member progress next y z kept step => by
        obtain ⟨job, inside, found⟩ := known child member
        obtain ⟨admitted, parented⟩ := read_child coherent own inside found
        simp only [reconcileStep, returns_bind, returns_pure] at step
        obtain ⟨⟨record, held⟩, _, child_run, rfl, rfl⟩ := step
        obtain ⟨step, arrived⟩ := reconcileChild_arrives kept.1.consistent coherent admitted found.readable found.few
          (parented.trans id.symm) child_run
        exact ⟨⟨kept.1.trans step, kept.2⟩, fun _ => arrived, fun other held own => step.arrived _ own (held own)⟩
    have third := (superseded.forEach (Step all keys groups w) (fun _ _ => True) (.refl second.consistent)
      fun child member _ y z kept pass => by
        obtain ⟨job, inside, found⟩ := known child member
        obtain ⟨admitted, _⟩ := read_child coherent own inside found
        obtain ⟨step, _⟩ := supersedeCiJobs_passed kept.consistent coherent admitted pass
        exact ⟨kept.trans step, trivial, fun _ _ => trivial⟩).1
    have recorded : (progress.record group.children.length host.now).run_id = original.parent.job_id := summary.trans id
    have fourth := writeParent_step third.consistent coherent own recorded summarised
    have whole := ((first.trans second).trans third).trans fourth
    have last : Advance all keys groups y t
        ∧ ∀ name, name ≠ file → t.get (.queue .groups name) = y.get (.queue .groups name) := by
      obtain ⟨_, rfl⟩ | ⟨_, rfl⟩ := removed
      · exact ⟨fourth.consistent.forget file, fun name other => Files.get_remove_ne (by simpa using other)⟩
      · exact ⟨.refl fourth.consistent, fun _ _ => rfl⟩
    refine ⟨whole.toAdvance.trans last.1, fun name other => (last.2 name other).trans (whole.journals name), ?_⟩
    intro asked member here _ child inside
    obtain rfl := coherent.parents asked member original own (ini_injective (here.symm.trans named))
    obtain ⟨job, listed, found⟩ := forall₂_right children.flip child inside
    have mine : jobKey child ∈ keys := coherent.children asked own child inside
    have same : jobKey job = jobKey child := found.key
    have arrived := came job listed (same ▸ mine)
    exact last.1.arrived _ mine (fourth.arrived _ mine (third.arrived _ mine (same ▸ arrived)))

/-- reconcileWorkflowGroups brings the children of every group with a journal. -/
theorem reconcileWorkflowGroups_arrives (h : Consistent all keys groups s) (coherent : Coherent all keys groups)
    (run : (reconcileWorkflowGroups host).Returns s r t) : Advance all keys groups s t ∧ ∀ group ∈ groups,
      (s.get (.queue .groups (ini group.parent.job_id))).isSome → ∀ child ∈ group.children, Arrived t (jobKey child) := by
  simp only [reconcileWorkflowGroups, returns_bind, returns_gets] at run
  obtain ⟨names, _, ⟨rfl, rfl⟩, run⟩ := run
  let reached (group : WorkflowGroup) (u : Files) : Prop := ∀ child ∈ group.children, Arrived u (jobKey child)
  let journal (group : WorkflowGroup) (u : Files) : Prop := (u.get (.queue .groups (ini group.parent.job_id))).isSome
  obtain ⟨⟨advance, _⟩, came, _⟩ := run.forEach
    (fun u => Advance all keys groups s u ∧ ∀ group ∈ groups, journal group s → journal group u ∨ reached group u)
    (fun file u => ∀ group ∈ groups, journal group s → file = ini group.parent.job_id → reached group u)
    ⟨.refl h, fun _ _ held => .inl held⟩ fun file _ _ u v kept step => by
      have regrouped := reconcileGroup_regroups kept.1.consistent coherent step
      have keeps : ∀ group ∈ groups, reached group u → reached group v := fun group own held child inside =>
        regrouped.arrived _ (coherent.children group own child inside) (held child inside)
      refine ⟨⟨kept.1.trans regrouped.toAdvance, fun group own held => ?_⟩, fun group own held here => ?_,
        fun other held group own from_start here => keeps group own (held group own from_start here)⟩
      · by_cases here : file = ini group.parent.job_id
        · rcases kept.2 group own held with present | arrived
          · exact .inr (regrouped.children group own here (here ▸ present))
          · exact .inr (keeps group own arrived)
        · refine (kept.2 group own held).imp (fun present => ?_) (keeps group own)
          show (v.get (.queue .groups (ini group.parent.job_id))).isSome
          rw [regrouped.others _ (Ne.symm here)]
          exact present
      · rcases kept.2 group own held with present | arrived
        · exact regrouped.children group own here (here ▸ present)
        · exact keeps group own arrived
  refine ⟨advance, fun group own held => came _ (List.mem_filter.mpr ⟨?_, isIni_ini _⟩) group own held rfl⟩
  exact (List.mergeSort_perm _ _).mem_iff.mpr ((host.order_perm _).mem_iff.mpr (mem_names held))

end CkGit.Store
