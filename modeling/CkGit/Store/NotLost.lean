import CkGit.Store.GivenUp
import CkGit.Store.Kept
import CkGit.Store.Servers

/-!
No job is lost: whatever operations run, and wherever they are cut, a job that was
accepted is in spool/, in working/ or in the journal of its workflow, or its run
has ended.
-/
namespace CkGit.Store
open CkGit.Base CkGit.Ci Prog
open CkGit.Workflow (queuedRecord previewRecord)

variable {project id : Bytes} {s t : Files} {d : Demand}

theorem withSortedLabels_readable {job : CiJobRequest} (readable : ReadableJob job) :
    ReadableJob job.withSortedLabels := (parseJob_readable (parseJob_serializeJob readable)).1

def WorkflowGroup.withSortedLabels (group : WorkflowGroup) : WorkflowGroup where
  parent := group.parent.withSortedLabels
  children := group.children.map CiJobRequest.withSortedLabels

/-- A group whose jobs can be read back from a journal. -/
def ReadableGroup (group : WorkflowGroup) : Prop :=
  ∀ job ∈ group.parent :: group.children, ReadableJob job ∧ job.runs_on.length ≤ kMaximumCiLabels

theorem withSortedLabels_valid {group : WorkflowGroup} (valid : validateWorkflowGroup group = .ok ())
    (readable : ReadableGroup group) : validateWorkflowGroup group.withSortedLabels = .ok () := by
  obtain ⟨formed, siblings, acyclic⟩ := validateWorkflowGroup_iff.mp valid
  have ids : group.withSortedLabels.children.map (·.job_id) = group.children.map (·.job_id) := List.map_map
  have names : group.withSortedLabels.children.map (·.workflow_job) = group.children.map (·.workflow_job) :=
    List.map_map
  have needs : Needs group.withSortedLabels.children = Needs group.children := by
    funext id other
    simp [Needs, WorkflowGroup.withSortedLabels, CiJobRequest.withSortedLabels]
  have parses : ∀ job ∈ group.parent :: group.children,
      ∃ read, parseJob (serializeJob job.withSortedLabels) = .ok read := fun job inside =>
    ⟨_, parseJob_serializeJob (withSortedLabels_readable (readable job inside).1)⟩
  refine validateWorkflowGroup_iff.mpr ⟨⟨?_, formed.top, ?_, ?_, ?_, ?_, ids ▸ formed.ids, names ▸ formed.names⟩, ?_,
    needs ▸ acyclic⟩
  · exact parses _ List.mem_cons_self
  · exact fun none => formed.some_child (List.map_eq_nil_iff.mp none)
  · exact (List.length_map _).trans_le formed.few
  · intro child inside
    obtain ⟨job, own, rfl⟩ := List.mem_map.mp inside
    exact parses job (List.mem_cons_of_mem _ own)
  · intro child inside
    obtain ⟨job, own, rfl⟩ := List.mem_map.mp inside
    exact formed.consistent job own
  · intro child inside need needed
    obtain ⟨job, own, rfl⟩ := List.mem_map.mp inside
    rw [ids]
    exact siblings job own need needed

theorem parseGroupJob_serialized {key : String} {job : CiJobRequest} (readable : ReadableJob job)
    (few : job.runs_on.length ≤ kMaximumCiLabels) :
    parseGroupJob key (ascii key ++ hexEncode (serializeJob job)) = .ok job.withSortedLabels := by
  simp only [parseGroupJob, field_append, bind_ok, Except.ok.injEq, exists_eq_left']
  exact ⟨_, orFail_ok.mpr (hexDecode_hexEncode (readable.fits few)), parseJob_serializeJob readable⟩

/-- A journal reads back as its group, with the labels of each job sorted. -/
theorem parseWorkflowGroup_serialized {group : WorkflowGroup} {bytes : Bytes}
    (valid : validateWorkflowGroup group = .ok ()) (readable : ReadableGroup group)
    (text : serializeWorkflowGroup group = .ok bytes) :
    parseWorkflowGroup bytes = .ok group.withSortedLabels := by
  obtain ⟨formed, _⟩ := validateWorkflowGroup_iff.mp valid
  have some_child := List.length_pos_iff.mpr formed.some_child
  have few := formed.few
  have parent := readable _ List.mem_cons_self
  have children : (group.children.map fun child => ascii "child_hex=" ++ hexEncode (serializeJob child)).mapM
      (parseGroupJob "child_hex=") = .ok group.withSortedLabels.children := by
    refine mapM_of_forall₂ ?_
    rw [WorkflowGroup.withSortedLabels, List.forall₂_map_left_iff, List.forall₂_map_right_iff, List.forall₂_same]
    intro child inside
    obtain ⟨own, labels⟩ := readable child (List.mem_cons_of_mem _ inside)
    exact parseGroupJob_serialized own labels
  rw [serialized_text text]
  simp only [parseWorkflowGroup, frameLines_framed (by simp [groupLines]) (groupLines_clean group), bind_ok, pure_ok,
    Except.ok.injEq, exists_eq_left', failIf, rejectIf_ok]
  refine ⟨(), ?_, _, parseGroupJob_serialized parent.1 parent.2, _, children, (), withSortedLabels_valid valid readable,
    rfl⟩
  simp only [groupLines, List.length_cons, List.length_map, List.headD_cons, ne_eq, not_true_eq_false, or_false]
  omega

theorem lists_withSortedLabels {group : WorkflowGroup} : Lists id group.withSortedLabels ↔ Lists id group := by
  simp [Lists, WorkflowGroup.withSortedLabels, CiJobRequest.withSortedLabels]

/-- The jobs of a journal that was read. -/
theorem parsed_group {bytes : Bytes} {group : WorkflowGroup} (parsed : parseWorkflowGroup bytes = .ok group) :
    validateWorkflowGroup group = .ok () ∧ ReadableGroup group := by
  simp only [parseWorkflowGroup, bind_ok, pure_ok] at parsed
  obtain ⟨lines, _, _, _, parent, parentRead, children, childrenRead, _, valid, rfl⟩ := parsed
  refine ⟨valid, fun job inside => ?_⟩
  have read : ∀ {key : String} {line : Bytes}, parseGroupJob key line = .ok job →
      ReadableJob job ∧ job.runs_on.length ≤ kMaximumCiLabels := by
    intro key line parsed
    simp only [parseGroupJob, bind_ok] at parsed
    obtain ⟨_, _, _, _, parsed⟩ := parsed
    obtain ⟨readable, sorted⟩ := parseJob_readable parsed
    have labels : sortedUnique job.runs_on = job.runs_on := congrArg CiJobRequest.runs_on sorted
    exact ⟨readable, labels ▸ readable.labels_few⟩
  rcases List.mem_cons.mp inside with rfl | child
  · exact read parentRead
  · obtain ⟨line, _, parsed⟩ := mapM_origin childrenRead child
    exact read parsed

theorem Keeping.ends {now : Prop} (h : Keeping project id d s) (finished : now → Ended project id s) :
    Keeping project id (d.ending now) s := { h with ended_kept := fun asked => asked.elim h.ended_kept finished }

/-- The demand behind a point where the job was safe. -/
def Demand.settled (d : Demand) (now : Prop) : Demand :=
  { d with due := d.due ∨ now, pending := fun name => d.pending name ∧ ¬ now }

theorem Keeping.settle {now : Prop} (h : Keeping project id d s) (safe : now → Safe project id s) :
    Keeping project id (d.settled now) s := by
  have apart : Somewhere project id s d.pending → Somewhere project id s (d.settled now).pending := by
    rintro (found | ⟨name, still, journal⟩)
    · exact .inl found
    · by_cases settled : now
      · exact .inl (safe settled)
      · exact .inr ⟨name, ⟨still, settled⟩, journal⟩
  exact
    { h with
      published := fun owner run bytes group read parsed listed =>
        apart (h.published owner run bytes group read parsed listed)
      due_kept := fun asked => asked.elim (fun asked => apart (h.due_kept asked)) fun settled => .inl (safe settled) }

theorem Keeping.unsettled {now : Prop} (h : Keeping project id (d.settled now) s) : Keeping project id d s :=
  h.weaken .inl (fun _ still => still.1) (fun _ known => known) fun asked => asked

theorem Keeping.safe {now : Prop} (h : Keeping project id (d.settled now) s) (settled : now) : Safe project id s := by
  rcases h.due_kept (.inr settled) with safe | ⟨_, still, _⟩
  · exact safe
  · exact absurd settled still.2

theorem Keeping.ending_of {now now' : Prop} (h : Keeping project id (d.ending now) s) (implies : now' → now) :
    Keeping project id (d.ending now') s :=
  h.weaken (fun asked => asked) (fun _ still => still) (fun _ known => known) fun asked => asked.imp_right implies

theorem Usual.again {job : CiJobRequest} {attempt : UInt32} (usual : Usual project id job)
    (range : 1 ≤ attempt.toNat ∧ attempt.toNat ≤ 1000) : Usual project id { job with attempt } := by
  have readable := usual.readable
  exact ⟨usual.own, ⟨readable.id_valid, readable.project_valid, readable.client_valid, readable.commit_valid,
    readable.dependencies_valid, readable.ref_short, range, readable.labels_valid, readable.labels_few⟩, usual.few⟩

section
variable (host : Host)

/-- The record of another run. -/
theorem other_recordable {run : CiRunRecord} (fits : RunFits run) (other : run.run_id ≠ id) :
    Recordable project id run := ⟨fits, fun mine => absurd mine.2 other⟩

theorem other_record_keeps {run : CiRunRecord} (fits : RunFits run) (other : run.run_id ≠ id) :
    Keep project id d (writeCiRunRecord host run) :=
  writeCiRunRecord_keeps host (other_recordable fits other) fun _ _ mine => absurd mine.2 other

theorem childRecord_wp {parent child : CiJobRequest} (h : Keeping project id d s) (usual : Usual project id child) :
    (childRecord host parent child).wp (Keeping project id d)
      (fun record t => (1 ≤ record.attempt.toNat ∧ record.attempt.toNat ≤ 1000)
        ∧ Keeping project id (d.ending (child.job_id = id ∧ ciRunStatusIsActive record.status = false)) t)
      (fun _ => Keeping project id d) s := by
  simp only [childRecord, wp_bind, wp_gets]
  cases loaded : loadCiRun s child.project_name child.job_id with
  | none =>
    have unended : Tracks project id (queuedRecord child) → ¬ Ended project id s := by
      rintro ⟨rfl, rfl⟩ ⟨run, found, _⟩
      cases loaded.symm.trans found
    rw [wp_bind]
    refine wp_mono (writeCiRunRecord_wp host (queuedRecord_recordable usual.readable) h fun mine _ => ⟨fun asked =>
      unended mine (h.ended_kept asked), fun ended => absurd ended (unended mine)⟩) (fun _ kept => kept) ?_ ?_
    · intro _ t after
      refine ⟨usual.readable.attempt_range, after.2.under.ends ?_⟩
      rintro ⟨_, active⟩
      cases active
    · rintro _ _ ⟨_, rfl⟩
      exact h
  | some record =>
    rw [wp_bind]
    refine wp_ofExcept (fun _ _ => ⟨(loaded_readable loaded).attempt_range, h.ends ?_⟩) fun _ _ => h
    rintro ⟨mine, ended⟩
    exact ⟨record, by rw [← usual.own mine, ← mine]; exact loaded, ended⟩

theorem present_of_read {directory : Directory} {name : Bytes} (read : (readJobAt s directory name).isSome) :
    (s.get (.queue directory name)).isSome := by
  obtain ⟨job, found⟩ := Option.isSome_iff_exists.mp read
  obtain ⟨_, there, _⟩ := Files.readAs_some.mp found
  rw [there]
  rfl

/-- A child that may still run has a job file again, or is cancelled. -/
theorem reviveChild_wp {child : CiJobRequest} {record : CiRunRecord} {held : Bool}
    (h : Keeping project id (d.ending (child.job_id = id ∧ ciRunStatusIsActive record.status = false)) s)
    (usual : Usual project id child) (range : 1 ≤ record.attempt.toNat ∧ record.attempt.toNat ≤ 1000)
    (claimed : held = true → (readJobAt s .working (ini child.job_id)).isSome) :
    (reviveChild host child record held).wp (Keeping project id d)
      (fun result => Keeping project id
        ((d.settled (child.job_id = id)).ending (child.job_id = id ∧ ciRunStatusIsActive result.status = false)))
      (fun _ => Keeping project id d) s := by
  unfold reviveChild
  split
  · next settled =>
    have ended : ciRunStatusIsActive record.status = false := by simpa using settled
    have finished : child.job_id = id → Ended project id s := fun mine => h.ended_kept (.inr ⟨mine, ended⟩)
    exact (h.under.settle fun mine => .inr (finished mine)).ends fun mine => finished mine.1
  · next active =>
    have open_run : ciRunStatusIsActive record.status = true := by simpa using active
    simp only [wp_bind, wp_gets]
    have rest : ∀ {t}, Keeping project id d t → (child.job_id = id → FilePresent id t) →
        (if ¬ held = true ∧ isCiCancelRequested t child.project_name child.job_id = true then do
            cancelQueuedJob host child (ascii "workflow cancelled before job started") .cancelled
            let again ← gets (loadCiRun · child.project_name child.job_id)
            ofExcept (orFail "distributed child record disappeared" again)
          else return record : Op CiRunRecord).wp (Keeping project id d)
          (fun result => Keeping project id
            ((d.settled (child.job_id = id)).ending (child.job_id = id ∧ ciRunStatusIsActive result.status = false)))
          (fun _ => Keeping project id d) t := by
      intro t kept present
      split
      · rw [wp_bind]
        refine wp_mono (cancelQueuedJob_wp host kept usual.plain rfl) (fun _ kept => kept) (fun _ u finished => ?_)
          fun _ _ kept => kept
        have ended : child.job_id = id → Ended project id u := fun mine => finished.ended_kept (.inr mine)
        refine wp_ofExcept (fun _ _ => ?_) fun _ _ => finished.under
        exact (finished.under.settle fun mine => .inr (ended mine)).ends fun mine => ended mine.1
      · refine (kept.settle fun mine => .inl (present mine)).ends ?_
        rintro ⟨_, ended⟩
        rw [open_run] at ended
        cases ended
    refine wp_whenever (fun _ => ?_) fun there => rest h.under fun mine => ?_
    · have queued := @Keeping.put_job _ _ _ _ h.under { child with attempt := record.attempt } host.millis
        (usual.again range).ours
      have kept := @Keeping.before _ _ _ d (child.job_id = id) queued
      refine ⟨kept, rest kept fun mine => ⟨.spool, .inl rfl, ?_⟩⟩
      rw [← mine, Files.get_put_self]
      rfl
    · rw [← mine]
      cases running : held with
      | true => exact ⟨.working, .inr rfl, present_of_read (claimed running)⟩
      | false =>
        refine ⟨.spool, .inl rfl, present_of_read ?_⟩
        exact Option.isSome_iff_ne_none.mpr (by simpa [running] using there)

/-- A child is safe behind its part of the loop, and has ended if it is not active. -/
theorem reconcileChild_wp {parent child : CiJobRequest} (h : Keeping project id d s) (usual : Usual project id child) :
    (reconcileChild host parent child).wp (Keeping project id d)
      (fun result => Keeping project id
        ((d.settled (child.job_id = id)).ending (child.job_id = id ∧ ciRunStatusIsActive result.1.status = false)))
      (fun _ => Keeping project id d) s := by
  simp only [reconcileChild, wp_bind]
  refine wp_mono (childRecord_wp host h usual) (fun _ kept => kept) (fun record t after => ?_) fun _ _ kept => kept
  simp only [wp_bind, wp_gets]
  refine wp_mono (reviveChild_wp host after.2 usual after.1 fun held => held) (fun _ kept => kept)
    (fun result u kept => ?_) fun _ _ kept => kept
  rw [wp_bind]
  refine wp_whenever (fun settled => ?_) fun _ => kept
  have ended : ciRunStatusIsActive result.status = false := by simpa using settled.1
  have gone := @Keeping.remove_job _ _ _ _ kept .spool (ini child.job_id) (.inl rfl)
    (fun named => .inl (kept.ended_kept (.inr ⟨ini_injective named, ended⟩))) (by intro wrong; cases wrong)
  exact ⟨gone.under.unsettled, gone⟩

/-- The summary is the parent's record. -/
def SummaryOf (parent : CiJobRequest) (summary : CiRunRecord) : Prop :=
  summary.run_id = parent.job_id ∧ RunFits summary

/-- Each child is safe, and where all are done each has ended. -/
theorem children_wp {parent : CiJobRequest} {children : List CiJobRequest} {progress : GroupProgress}
    (summary : SummaryOf parent progress.summary) (usual : ∀ child ∈ children, Usual project id child)
    (h : Keeping project id d s) :
    (accumulate children progress (reconcileStep host parent)).wp (Keeping project id d)
      (fun after t => SummaryOf parent after.summary ∧ after.done ≤ progress.done + children.length
        ∧ Keeping project id ((d.settled (∃ child ∈ children, child.job_id = id)).ending
            ((∃ child ∈ children, child.job_id = id) ∧ after.done = progress.done + children.length)) t)
      (fun _ => Keeping project id d) s := by
  induction children generalizing progress d s with
  | nil =>
    have none : ¬ ∃ child ∈ ([] : List CiJobRequest), child.job_id = id := by
      rintro ⟨_, inside, _⟩
      cases inside
    exact ⟨summary, Nat.le_refl _, (h.settle fun listed => absurd listed none).ends fun both => absurd both.1 none⟩
  | cons child rest ih =>
    simp only [accumulate, reconcileStep, wp_bind]
    refine wp_mono (reconcileChild_wp host h (usual child List.mem_cons_self)) (fun _ kept => kept)
      (fun result t kept => ?_) fun _ _ kept => kept
    obtain ⟨record, held⟩ := result
    rw [wp_pure]
    have counted : (progress.note record held).done
        = if ciRunStatusIsActive record.status = false then progress.done + 1 else progress.done := by
      simp [GroupProgress.note]
    refine wp_mono (ih (show SummaryOf parent (progress.note record held).summary from summary)
      (fun other inside => usual other (List.mem_cons_of_mem _ inside)) kept) (fun _ kept => kept.under.unsettled)
      (fun after u found => ?_) fun _ _ kept => kept.under.unsettled
    obtain ⟨own, most, finished⟩ := found
    rw [counted] at most finished
    have first := finished.under.unsettled
    refine ⟨own, ?_, (first.under.unsettled.settle ?_).ends ?_⟩
    · rw [List.length_cons]
      split at most <;> omega
    · rintro ⟨other, inside, mine⟩
      rcases List.mem_cons.mp inside with rfl | later
      · exact first.under.safe mine
      · exact finished.under.safe ⟨other, later, mine⟩
    · rintro ⟨⟨other, inside, mine⟩, all⟩
      rw [List.length_cons] at all
      have ended : ciRunStatusIsActive record.status = false := by
        by_contra active
        rw [if_neg active] at most
        omega
      rw [if_pos ended] at finished
      apply finished.ended_kept
      rcases List.mem_cons.mp inside with rfl | later
      · exact .inl (.inr ⟨mine, ended⟩)
      · exact .inr ⟨⟨other, later, mine⟩, by omega⟩

theorem prepare_wp (owner run : Bytes) (h : Keeping project id d s) :
    (prepareCiRunDirectory host owner run).wp (Keeping project id d)
      (fun _ t => SameFiles s t ∧ Keeping project id d t) (fun _ => Keeping project id d) s := by
  simp only [prepareCiRunDirectory, wp_bind]
  refine wp_ofExcept (fun _ _ => ?_) fun _ _ => h
  rw [wp_bind]
  refine wp_ofExcept (fun _ _ => ?_) fun _ _ => h
  exact wp_mono (wp_and (ensureRunDir_same_files host _ _) (runDir_keeps host _ _ s h)) (fun _ both => both.2)
    (fun _ _ both => both) fun _ _ both => both.2

/-- Publishing a group keeps a job that it lists where it is. -/
theorem publishGroup_wp {group : WorkflowGroup} {bytes : Bytes} (h : Keeping project id d s)
    (parsed : parseWorkflowGroup bytes = .ok group) (other : group.parent.job_id ≠ id)
    (placed : ∀ t, SameFiles s t → Lists id group → Somewhere project id t d.pending) :
    (publishGroup host group.parent bytes).wp (Keeping project id d) (fun _ => Keeping project id d)
      (fun _ => Keeping project id d) s := by
  have parent := (parsed_group parsed).2 _ List.mem_cons_self
  have recorded : Keep project id d (do
      let recorded ← gets (loadCiRun · group.parent.project_name group.parent.job_id)
      whenever recorded.isNone (writeCiRunRecord host (queuedRecord group.parent))) :=
    (Keeps.gets _).bind fun _ => (other_record_keeps host
      (queuedRecord_fits parent.1.ref_short parent.1.attempt_range) other).whenever
  simp only [publishGroup, wp_bind]
  refine wp_mono (prepare_wp host _ _ h) (fun _ kept => kept) (fun _ t after => ?_) fun _ _ kept => kept
  obtain ⟨same, kept⟩ := after
  rw [wp_bind]
  refine wp_reads (fun held _ => ?_) fun _ _ => kept
  cases held with
  | some existing =>
    simp only [wp_bind]
    exact wp_ofExcept (fun _ _ => recorded t kept) fun _ _ => kept
  | none =>
    have written : Keeping project id d
        (t.put (.run group.parent.project_name group.parent.job_id .workflow) ⟨bytes, host.millis⟩) := by
      have somewhere : ∀ {pending}, Somewhere project id t pending → Somewhere project id
          (t.put (.run group.parent.project_name group.parent.job_id .workflow) ⟨bytes, host.millis⟩) pending :=
        fun there => there.same (Safe.same (fun _ _ => Files.get_put_ne (by simp)) (Files.get_put_ne (by simp)))
          fun _ => Files.get_put_ne (by simp)
      refine kept.journal (.inr ⟨_, _, rfl⟩) (fun _ elsewhere => Files.get_put_ne elsewhere) ?_ somewhere
        (fun asked => somewhere (kept.due_kept asked)) ?_ (fun _ known => known) fun asked => asked
      · intro _ _ _ wrong
        cases wrong
      · intro _ _ read again _ found reads listed
        obtain ⟨file, present, rfl⟩ := capped_some found
        rw [Files.get_put_self] at present
        obtain rfl := Option.some.inj present
        obtain rfl := Except.ok.inj (parsed.symm.trans reads)
        exact somewhere (placed t same listed)
    exact ⟨written, recorded _ written⟩

theorem summary_terminal {progress : GroupProgress} {children : Nat} {now : UInt64}
    (ended : ciRunStatusIsActive (progress.record children now).status = false) : progress.done = children := by
  by_contra more
  simp only [GroupProgress.record, if_neg more] at ended
  split at ended <;> cases ended

/-- One journal, seen from a job: its children become safe, and have ended when the journal goes. -/
theorem reconcileGroup_wp {crash returned : Files → Prop} {file bytes : Bytes} {group : WorkflowGroup}
    (h : Keeping project id d s)
    (read : s.readCapped (.queue .groups file) kMaximumWorkflowGroupBytes = .ok (some bytes))
    (parsed : parseWorkflowGroup bytes = .ok group)
    (placed : file = ini group.parent.job_id → ∀ t, SameFiles s t → Lists id group → Somewhere project id t d.pending)
    (free : ∀ t, Keeping project id d t → crash t)
    (stays : ∀ t, Keeping project id (d.settled (Lists id group)) t → returned t)
    (removed : ∀ t, Keeping project id ((d.settled (Lists id group)).ending (Lists id group)) t →
      crash (t.remove (.queue .groups file)) ∧ returned (t.remove (.queue .groups file))) :
    (reconcileGroup host file).wp crash (fun _ => returned) (fun _ => crash) s := by
  obtain ⟨other, spares⟩ := h.journals file bytes group read parsed
  obtain ⟨valid, readable⟩ := parsed_group parsed
  have parent := (readable _ List.mem_cons_self).1
  have usual : ∀ child ∈ group.children, Usual project id child := fun child inside =>
    ⟨spares child inside, (readable child (List.mem_cons_of_mem _ inside)).1,
      (readable child (List.mem_cons_of_mem _ inside)).2⟩
  have start : SummaryOf group.parent (GroupProgress.start group.parent).summary :=
    ⟨rfl, queuedRecord_fits parent.ref_short parent.attempt_range⟩
  simp only [reconcileGroup, wp_bind]
  refine wp_reads (fun held found => ?_) fun _ _ => free s h
  cases Except.ok.inj (read.symm.trans found)
  simp only [wp_bind]
  refine wp_ofExcept (fun found reads => ?_) fun _ _ => free s h
  obtain rfl := Except.ok.inj (parsed.symm.trans reads)
  rw [wp_bind]
  refine wp_ofExcept (fun _ named => ?_) fun _ _ => free s h
  simp only [failIf, rejectIf_ok, not_not] at named
  rw [wp_bind]
  refine wp_mono (publishGroup_wp host h parsed other (placed named)) free (fun _ t kept => ?_) fun _ => free
  rw [wp_bind]
  refine wp_mono (children_wp host start usual kept) free (fun progress u after => ?_) fun _ => free
  obtain ⟨⟨named, own⟩, _, finished⟩ := after
  have fits : RunFits (progress.record group.children.length host.now) := own
  have record : (progress.record group.children.length host.now).run_id ≠ id := fun mine =>
    other (named.symm.trans mine)
  have under : ∀ t, Keeping project id ((d.settled (Lists id group)).ending (Lists id group
      ∧ progress.done = 0 + group.children.length)) t → crash t := fun t kept => free t kept.under.unsettled
  rw [wp_bind]
  refine wp_mono (wp_forEach (fun child inside => supersedeCiJobs_keeps host (usual child inside).plain) finished) under
    (fun _ v kept => ?_) fun _ => under
  rw [wp_bind]
  refine wp_mono (other_record_keeps host fits record v kept) under (fun _ w kept => ?_) fun _ => under
  refine wp_whenever (fun ended => ?_) fun _ => stays w kept.under
  -- The summary has ended, so each child has.
  have all : progress.done = 0 + group.children.length :=
    (summary_terminal (by simpa using ended)).trans (Nat.zero_add _).symm
  exact removed w (kept.ending_of fun listed => ⟨listed, all⟩)

/-- A journal goes when the job is kept without it. -/
theorem Keeping.remove_journal {file : Bytes} {pending : Bytes → Prop}
    (h : Keeping project id { d with pending } s) (more : ∀ name, pending name → d.pending name)
    (kept : Ended project id s ∨ ∀ name, pending name → name ≠ file) :
    Keeping project id d (s.remove (.queue .groups file)) := by
  have record : (s.remove (.queue .groups file)).get (.run project id .record) = s.get (.run project id .record) :=
    Files.get_remove_ne (by simp)
  have somewhere : Somewhere project id s pending →
      Somewhere project id (s.remove (.queue .groups file)) d.pending := by
    intro there
    rcases kept with ended | others
    · exact .inl (.inr (ended.same record))
    · rcases there with safe | ⟨name, still, journal⟩
      · exact .inl (safe.same (fun directory queued => Files.get_remove_ne (by
          intro equal
          injection equal with equal
          exact (queued_ne queued).2 equal)) record)
      · refine .inr ⟨name, more name still, journal.same (Files.get_remove_ne ?_)⟩
        intro equal
        injection equal with _ equal
        exact others name still equal
  refine h.journal (.inl ⟨file, rfl⟩) (fun _ other => Files.get_remove_ne other) ?_ somewhere
    (fun asked => somewhere (h.due_kept asked)) ?_ (fun _ known => known) fun asked => asked
  · intro name bytes group _ read
    simp [Files.readCapped, Files.get_remove_self] at read
  · intro _ _ _ _ wrong
    cases wrong

/-- The demand without one journal. -/
def Demand.except (d : Demand) (file : Bytes) : Demand := { d with pending := fun name => d.pending name ∧ name ≠ file }

/-- The job does without a journal that does not list it. -/
theorem Keeping.without {file bytes : Bytes} {group : WorkflowGroup} (h : Keeping project id d s)
    (read : s.readCapped (.queue .groups file) kMaximumWorkflowGroupBytes = .ok (some bytes))
    (parsed : parseWorkflowGroup bytes = .ok group) (unlisted : ¬ Lists id group) :
    Keeping project id (d.except file) s := by
  have apart : Somewhere project id s d.pending → Somewhere project id s (d.except file).pending := by
    rintro (safe | ⟨name, still, journal⟩)
    · exact .inl safe
    · refine .inr ⟨name, ⟨still, ?_⟩, journal⟩
      rintro rfl
      obtain ⟨_, _, again, reads, _, inside⟩ := journal
      cases Except.ok.inj (read.symm.trans again)
      obtain rfl := Except.ok.inj (parsed.symm.trans reads)
      exact unlisted inside
  exact
    { h with
      published := fun owner run bytes group found reads inside =>
        apart (h.published owner run bytes group found reads inside)
      due_kept := fun asked => apart (h.due_kept asked) }

theorem Keeping.besides {file : Bytes} (h : Keeping project id (d.except file) s) : Keeping project id d s :=
  h.weaken (fun asked => asked) (fun _ still => still.1) (fun _ known => known) fun asked => asked

theorem Keeping.remove_unlisted {file : Bytes} (h : Keeping project id (d.except file) s) :
    Keeping project id d (s.remove (.queue .groups file)) :=
  h.remove_journal (fun _ still => still.1) (.inr fun _ still => still.2)

/-- A journal of the job is a place of it. -/
def Demand.Counts (project id : Bytes) (d : Demand) : Prop :=
  ∀ t name, Keeping project id d t → Journalled id t name → Somewhere project id t d.pending

theorem Demand.Counts.owed {now : Prop} (counts : d.Counts project id) : (d.owed now).Counts project id :=
  fun t name kept journal => counts t name kept.before journal

/-- A journal that cannot be read, or is nobody's, changes nothing. -/
theorem reconcileGroup_unread {crash returned : Files → Prop} {file : Bytes} (free : crash s) (stays : returned s)
    (none : ∀ bytes group, s.readCapped (.queue .groups file) kMaximumWorkflowGroupBytes = .ok (some bytes) →
      parseWorkflowGroup bytes ≠ .ok group) :
    (reconcileGroup host file).wp crash (fun _ => returned) (fun _ => crash) s := by
  simp only [reconcileGroup, wp_bind]
  refine wp_reads (fun held found => ?_) fun _ _ => free
  cases held with
  | none => exact stays
  | some bytes =>
    simp only [wp_bind]
    exact wp_ofExcept (fun group parsed => absurd parsed (none bytes group found)) fun _ _ => free

/-- Reconciling one journal keeps the job: what a journal lists has ended when it goes. -/
theorem reconcileGroup_keeps (counts : d.Counts project id) (file : Bytes) :
    Keep project id d (reconcileGroup host file) := by
  intro s h
  by_cases held : ∃ bytes group, s.readCapped (.queue .groups file) kMaximumWorkflowGroupBytes = .ok (some bytes)
      ∧ parseWorkflowGroup bytes = .ok group
  · obtain ⟨bytes, group, read, parsed⟩ := held
    by_cases listed : Lists id group
    · refine reconcileGroup_wp host h read parsed (fun named t same _ => ?_) (fun _ kept => kept)
        (fun _ kept => kept.unsettled) fun t kept => ?_
      · refine counts t file (h.same same.decisive) ⟨bytes, group, ?_, parsed, named, listed⟩
        rwa [Files.readCapped_congr (same _ (by simp))]
      · have gone : Keeping project id d (t.remove (.queue .groups file)) :=
          kept.under.unsettled.remove_journal (fun _ still => still) (.inl (kept.ended_kept (.inr listed)))
        exact ⟨gone, gone⟩
    · refine reconcileGroup_wp host (h.without read parsed listed) read parsed
        (fun _ _ _ inside => absurd inside listed) (fun _ => Keeping.besides) (fun _ kept => kept.unsettled.besides)
        fun t kept => ?_
      have gone := kept.under.unsettled.remove_unlisted
      exact ⟨gone, gone⟩
  · exact reconcileGroup_unread host h h fun bytes group read parsed => held ⟨bytes, group, read, parsed⟩

theorem reconcileWorkflowGroups_keeps (counts : d.Counts project id) :
    Keep project id d (reconcileWorkflowGroups host) :=
  (Keeps.gets _).bind fun _ => Keeps.forEach fun file => reconcileGroup_keeps host counts file

/-- The job is due, and this journal has it if it is not safe. -/
def Demand.journal (d : Demand) (file : Bytes) : Demand := { d with due := True, pending := fun name => name = file }

theorem due_counts (due : d.due) : d.Counts project id := fun _ _ kept _ => kept.due_kept due

/-- What is safe stays so while the journals are reconciled. -/
theorem safe_kept {p : Op Unit} (kept : Keep project id (d.settled True) p) (h : Keeping project id d s)
    (safe : Safe project id s) : p.wp (fun _ => True) (fun _ => Safe project id) (fun _ _ => True) s :=
  wp_mono (kept s (h.settle fun _ => safe)) (fun _ _ => trivial) (fun _ _ after => after.safe trivial)
    fun _ _ _ => trivial

theorem settled_counts : (d.settled True).Counts project id := due_counts (.inr trivial)

/-- What a journal lists is safe once the journal was reconciled. -/
theorem reconcileGroup_brings {file : Bytes} (h : Keeping project id (d.journal file) s) :
    (reconcileGroup host file).wp (fun _ => True) (fun _ => Safe project id) (fun _ _ => True) s := by
  rcases h.due_kept trivial with safe | ⟨name, same, journal⟩
  · exact safe_kept (reconcileGroup_keeps host settled_counts file) h safe
  · obtain rfl : name = file := same
    obtain ⟨bytes, group, read, parsed, named, listed⟩ := journal
    refine reconcileGroup_wp host h read parsed (fun _ t same _ => ?_) (fun _ _ => trivial)
      (fun _ kept => kept.safe listed) fun t kept => ⟨trivial, .inr ?_⟩
    · exact (h.same same.decisive).due_kept trivial
    · exact (kept.ended_kept (.inr listed)).same (Files.get_remove_ne (by simp))

/-- A job that is due is safe once all journals were reconciled. -/
theorem reconcileWorkflowGroups_brings (due : d.due) (h : Keeping project id d s) :
    (reconcileWorkflowGroups host).wp (fun _ => True) (fun _ => Safe project id) (fun _ _ => True) s := by
  rcases h.due_kept due with safe | ⟨file, _, journal⟩
  · exact safe_kept (reconcileWorkflowGroups_keeps host settled_counts) h safe
  · have start : Keeping project id (d.journal file) s :=
      { h with
        published := fun _ _ _ _ _ _ _ => .inr ⟨file, rfl, journal⟩
        due_kept := fun _ => .inr ⟨file, rfl, journal⟩ }
    obtain ⟨bytes, group, read, _, named, _⟩ := journal
    have listed : file ∈ ((host.order (s.names .groups)).mergeSort fun a b => a ≤ b).filter isIni := by
      obtain ⟨_, present, _⟩ := capped_some read
      refine List.mem_filter.mpr ⟨?_, named ▸ isIni_ini _⟩
      apply (List.mergeSort_perm _ _).mem_iff.mpr
      exact (host.order_perm _).mem_iff.mpr (mem_names (by rw [present]; rfl))
    -- The journal of the job makes it safe, any other one leaves it so.
    have each : ∀ earlier item t, Keeping project id ((d.journal file).settled (file ∈ earlier)) t →
        (reconcileGroup host item).wp (fun _ => True)
          (fun _ => Keeping project id ((d.journal file).settled (file ∈ earlier ++ [item]))) (fun _ _ => True) t := by
      intro earlier item t kept
      have counts : ((d.journal file).settled (file ∈ earlier)).Counts project id := due_counts (.inl trivial)
      have after := reconcileGroup_keeps host counts item t kept
      by_cases mine : item = file
      · subst mine
        refine wp_mono (wp_and after (reconcileGroup_brings host kept.unsettled)) (fun _ _ => trivial)
          (fun _ _ both => both.1.unsettled.settle fun _ => both.2) fun _ _ _ => trivial
      · refine wp_mono after (fun _ _ => trivial) (fun _ _ after => after.unsettled.settle fun inside => after.safe ?_)
          fun _ _ _ => trivial
        rcases List.mem_append.mp inside with before | now
        · exact before
        · exact absurd (List.mem_singleton.mp now).symm mine
    have through : ∀ files, (forEach files (reconcileGroup host)).wp (fun _ => True)
        (fun _ => Keeping project id ((d.journal file).settled (file ∈ files))) (fun _ _ => True) s := fun files =>
      wp_forEach_done (fun earlier item _ _ => each earlier item)
        (start.settle fun wrong => absurd wrong List.not_mem_nil)
    simp only [reconcileWorkflowGroups, wp_bind, wp_gets]
    exact wp_mono (through _) (fun _ _ => trivial) (fun _ _ kept => kept.safe listed) fun _ _ _ => trivial

theorem writeJournal_wp {group : WorkflowGroup} {bytes : Bytes} (h : Keeping project id d s)
    (counts : d.Counts project id) (valid : validateWorkflowGroup group = .ok ()) (readable : ReadableGroup group)
    (text : serializeWorkflowGroup group = .ok bytes) (spares : Spares project id group) :
    (writeJournal host group bytes).wp (Keeping project id d)
      (fun _ => Keeping project id (d.owed (Lists id group))) (fun _ => Keeping project id d) s := by
  have parsed := parseWorkflowGroup_serialized valid readable text
  have journalled : ∀ t, Keeping project id d t →
      t.readCapped (.queue .groups (ini group.parent.job_id)) kMaximumWorkflowGroupBytes = .ok (some bytes) →
      Keeping project id (d.owed (Lists id group)) t := by
    intro t kept read
    refine { kept with due_kept := fun asked => asked.elim kept.due_kept fun listed => ?_ }
    exact counts t _ kept ⟨bytes, _, read, parsed, rfl, lists_withSortedLabels.mpr listed⟩
  simp only [writeJournal, wp_bind]
  refine wp_reads (fun held found => ?_) fun _ _ => h
  cases held with
  | some existing =>
    refine wp_ofExcept (fun _ same => ?_) fun _ _ => h
    simp only [failIf, rejectIf_ok, not_not] at same
    subst same
    exact journalled s h found
  | none =>
    simp only [wp_bind, wp_gets]
    refine wp_ofExcept (fun _ _ => ?_) fun _ _ => h
    let path : Path := .queue .groups (ini group.parent.job_id)
    have small : ¬ bytes.length > kMaximumWorkflowGroupBytes := by
      have text := text
      simp only [serializeWorkflowGroup, bind_ok, failIf, rejectIf_ok, pure_ok] at text
      obtain ⟨_, small, rfl⟩ := text
      exact small
    have reads : (s.put path ⟨bytes, host.millis⟩).readCapped path kMaximumWorkflowGroupBytes = .ok (some bytes) := by
      simp only [Files.readCapped, Files.get_put_self, if_neg small]
    have somewhere : Somewhere project id s d.pending →
        Somewhere project id (s.put path ⟨bytes, host.millis⟩) d.pending := by
      rintro (safe | ⟨name, still, journal⟩)
      · refine .inl (safe.same (fun directory queued => Files.get_put_ne ?_) (Files.get_put_ne (by simp [path])))
        intro equal
        injection equal with equal
        exact (queued_ne queued).2 equal
      · refine .inr ⟨name, still, journal.same (Files.get_put_ne ?_)⟩
        intro equal
        injection equal with _ equal
        obtain ⟨_, _, read, _⟩ := journal
        rw [equal, found] at read
        cases read
    have written : Keeping project id d (s.put path ⟨bytes, host.millis⟩) := by
      refine h.journal (.inl ⟨_, rfl⟩) (fun _ other => Files.get_put_ne other) ?_ somewhere
        (fun asked => somewhere (h.due_kept asked)) ?_ (fun _ known => known) fun asked => asked
      · intro _ _ again _ read found
        cases Except.ok.inj (reads.symm.trans read)
        obtain rfl := Except.ok.inj (parsed.symm.trans found)
        refine ⟨spares.1, fun child inside mine => ?_⟩
        obtain ⟨original, own, rfl⟩ := List.mem_map.mp inside
        exact spares.2 original own mine
      · intro _ _ _ _ wrong
        cases wrong
    exact ⟨written, journalled _ written reads⟩

/-- A workflow that was submitted keeps its children, also when it was there before. -/
theorem enqueueCiWorkflowJobs_wp {parent : CiJobRequest} {children : List CiJobRequest} (h : Keeping project id d s)
    (counts : d.Counts project id) (readable : ReadableGroup { parent, children })
    (spares : Spares project id { parent, children }) :
    (enqueueCiWorkflowJobs host parent children).wp (Keeping project id d)
      (fun _ => Keeping project id (d.owed (∃ child ∈ children, child.job_id = id)))
      (fun _ => Keeping project id d) s := by
  have plain : ∀ child ∈ children, Plain project id child := by
    intro child inside
    have own := (readable child (List.mem_cons_of_mem _ inside)).1
    exact ⟨spares.2 child inside, own.ref_short, own.attempt_range⟩
  have reconciles : Keep project id (d.owed (∃ child ∈ children, child.job_id = id)) (reconcileWorkflowGroups host) :=
    reconcileWorkflowGroups_keeps host counts.owed
  simp only [enqueueCiWorkflowJobs, wp_bind]
  refine wp_ofExcept (fun _ valid => ?_) fun _ _ => h
  rw [wp_bind]
  refine wp_ofExcept (fun bytes text => ?_) fun _ _ => h
  rw [wp_bind]
  refine wp_reads (fun published found => ?_) fun _ _ => h
  cases published with
  | some old =>
    simp only [wp_bind]
    refine wp_ofExcept (fun _ same => ?_) fun _ _ => h
    simp only [failIf, rejectIf_ok, not_not] at same
    subst same
    have read : s.readCapped (.run parent.project_name parent.job_id .workflow) kMaximumWorkflowGroupBytes
        = .ok (some old) := by
      unfold publishedJournal at found
      split at found
      · exact found
      · cases found
    have there : (∃ child ∈ children, child.job_id = id) → Somewhere project id s d.pending := by
      intro listed
      apply h.published _ _ _ _ read (parseWorkflowGroup_serialized valid readable text)
      exact lists_withSortedLabels.mpr listed
    have owed : Keeping project id (d.owed (∃ child ∈ children, child.job_id = id)) s :=
      { h with due_kept := fun asked => asked.elim h.due_kept there }
    exact wp_mono (reconciles s owed) (fun _ => Keeping.before) (fun _ _ kept => kept)
      fun _ _ => Keeping.before
  | none =>
    simp only [wp_bind, wp_gets]
    refine wp_ofExcept (fun _ _ => ?_) fun _ _ => h
    rw [wp_bind]
    refine wp_mono (writeJournal_wp host h counts valid readable text spares) (fun _ kept => kept) (fun _ t owed => ?_)
      fun _ _ kept => kept
    rw [wp_bind]
    refine wp_mono (reconciles t owed) (fun _ => Keeping.before) (fun _ u kept => ?_)
      fun _ _ => Keeping.before
    exact wp_mono (wp_forEach (fun child inside => supersedeCiJobs_keeps host (plain child inside)) kept)
      (fun _ => Keeping.before) (fun _ _ kept => kept) fun _ _ => Keeping.before

/-- A job that was accepted is kept from its file on. -/
theorem enqueueCiJob_wp {request : CiJobRequest} (h : Keeping project id d s) (open_run : ¬ d.ended)
    (usual : Usual project id request) :
    (enqueueCiJob host request).wp (Keeping project id d)
      (fun _ => Keeping project id (d.owed (request.job_id = id))) (fun _ => Keeping project id d) s := by
  simp only [enqueueCiJob, wp_bind]
  refine wp_ofExcept (fun _ _ => ?_) fun _ _ => h
  have queued : Keeping project id (d.owed (request.job_id = id))
      (s.put (.queue .spool (ini request.job_id)) ⟨serializeJob request, host.millis⟩) := h.put_job usual.ours
  rw [wp_bind, writeFile, wp_modify]
  refine ⟨queued.before, ?_⟩
  have readable : ReadableJob { request with attempt := 1 } :=
    (@Usual.again project id request 1 usual (by decide)).readable
  have preview : Recordable project id (previewRecord request) := by
    refine ⟨queuedRecord_fits readable.ref_short readable.attempt_range, fun _ _ now text => ?_⟩
    exact readable_roomy (queuedRecord_readable readable) rfl rfl now text
  have superseding : ∀ t, Keeping project id (d.owed (request.job_id = id)) t →
      (supersedeCiJobs host request).wp (Keeping project id d)
        (fun _ => Keeping project id (d.owed (request.job_id = id))) (fun _ => Keeping project id d) t := fun t kept =>
    wp_mono (supersedeCiJobs_keeps host usual.plain t kept) (fun _ => Keeping.before) (fun _ _ kept => kept)
      fun _ _ => Keeping.before
  rw [wp_bind, wp_bestEffort, wp_bind]
  refine wp_mono (prepare_wp host _ _ queued) (fun _ => Keeping.before) (fun _ t after => ?_)
    fun _ t kept => superseding t kept
  obtain ⟨same, kept⟩ := after
  refine wp_mono (writeCiRunRecord_wp host preview kept fun mine _ => ⟨open_run, fun _ => ⟨.spool, .inl rfl, ?_⟩⟩)
    (fun _ => Keeping.before) (fun _ u after => superseding u after.2.under) ?_
  · have named : request.job_id = id := mine.2
    rw [same _ (by simp), ← named, Files.get_put_self]
    rfl
  · rintro _ u ⟨_, rfl⟩
    exact superseding u kept

theorem takeJob_keeps (free : ∀ files, d.work files) (runner : Bytes) (lease_seconds : UInt64) (name : Bytes) :
    Keep project id d (takeJob host runner lease_seconds name) := by
  intro s h
  simp only [takeJob, wp_bind, wp_gets]
  split
  · exact h
  · have claimed := h.claim free name
    simp only [wp_bind, renameFile, wp_modify]
    refine ⟨claimed, ?_⟩
    simp only [wp_gets]
    cases read : readJobAt (s.rename (.queue .spool name) (.queue .working name)) .working name with
    | none =>
      have aside := claimed.aside read (free _)
      exact ⟨aside, aside⟩
    | some job =>
      have leased := fun file => @Keeping.put_other project id _ d claimed (.queue .leases name) file lease_other
      exact ⟨leased _, leased _⟩

theorem consider_keeps {options : CiClaimOptions} {busy pending : List RefHolder} {name : Bytes}
    {queued : CiJobRequest} (plain : Plain project id queued) :
    Keep project id d (consider host options busy pending name queued) := by
  apply (Keeps.gets _).bind
  intro cancelled
  split
  · exact (cancelQueuedJob_keeps host plain rfl).bind fun _ => Keeps.pure _
  · split
    · exact Keeps.pure _
    · apply (Keeps.gets _).bind
      intro needs
      split
      · exact (cancelQueuedJob_keeps host plain rfl).bind fun _ => Keeps.pure _
      · split
        · exact Keeps.pure _
        · exact (Keeps.gets _).bind fun _ => Keeps.pure _

theorem chooseEntry_keeps (options : CiClaimOptions) (busy pending : List RefHolder) (name : Bytes) :
    Keep project id d (chooseEntry host options busy pending name) := by
  intro s h
  simp only [chooseEntry, wp_bind, wp_gets]
  cases read : readJobAt s .spool name with
  | none => exact h
  | some queued => exact consider_keeps host (h.usual (.inl rfl) read).2.plain s h

theorem claimFrom_keeps (free : ∀ files, d.work files) (counts : d.Counts project id) (options : CiClaimOptions)
    (busy pending : List RefHolder) (names : List Bytes) (retry_in : Option Int) :
    Keep project id d (claimFrom host options busy pending names retry_in) := by
  induction names generalizing retry_in with
  | nil => exact Keeps.pure _
  | cons name rest ih =>
    apply (chooseEntry_keeps host options busy pending name).bind
    intro choice
    cases choice with
    | skip => exact ih _
    | wait milliseconds => exact ih _
    | take =>
      apply (takeJob_keeps host free _ _ name).bind
      intro taken
      cases taken with
      | none => exact ih _
      | some claim => exact (reconcileWorkflowGroups_keeps host counts).whenever.bind fun _ => Keeps.pure _

theorem claimCiJob_keeps (free : ∀ files, d.work files) (counts : d.Counts project id) (options : CiClaimOptions) :
    Keep project id d (claimCiJob host options) := by
  apply (Keeps.ofExcept _).bind
  intro _
  apply (reconcileWorkflowGroups_keeps host counts).bind
  intro _
  apply (Keeps.gets _).bind
  intro listed
  apply (Keeps.gets _).bind
  intro busy
  apply (Keeps.reads _).bind
  exact fun pending => claimFrom_keeps host free counts options busy pending _ _

theorem renewCiLease_keeps (job_id token : Bytes) (lease_seconds : UInt64) :
    Keep project id d (renewCiLease host job_id token lease_seconds) := by
  unfold renewCiLease
  split
  · exact Keeps.pure _
  · apply (Keeps.gets _).bind
    intro claimed
    apply (Keeps.gets _).bind
    intro lease
    cases lease with
    | none => exact Keeps.pure _
    | some lease =>
      simp only
      split
      · exact Keeps.pure _
      · exact (writeFile_other host lease_other).bind fun _ => Keeps.pure _

theorem Keeping.unlink_claim (h : Keeping project id d s) (free : ∀ files, d.work files) {job_id : Bytes}
    (finished : job_id = id → Ended project id s) : Keeping project id d (s.remove (.queue .working (ini job_id))) :=
  h.remove_job (.inr rfl) (fun named => .inl (finished (ini_injective named))) fun _ => free _

/-- A claim is released once the run of its job has ended. -/
theorem releaseCiClaim_wp {job_id token : Bytes} (h : Keeping project id d s) (free : ∀ files, d.work files)
    (counts : d.Counts project id) (finished : job_id = id → heldUnder s job_id token → Ended project id s) :
    (releaseCiClaim host job_id token).wp (Keeping project id d) (fun _ => Keeping project id d)
      (fun _ => Keeping project id d) s := by
  unfold releaseCiClaim
  split
  · exact h
  · simp only [wp_bind, wp_gets]
    split
    · exact h
    · next held =>
      have gone := h.unlink_claim free fun mine => finished mine (by simpa using held)
      have unleased := @Keeping.remove_other _ _ _ _ gone (.queue .leases (ini job_id)) lease_other
      simp only [wp_bind, unlink, wp_modify]
      refine ⟨gone, unleased, ?_⟩
      exact reconcileWorkflowGroups_keeps host counts _ unleased

theorem abandonCiJob_wp {job_id token runner : Bytes} (h : Keeping project id d s) (loose : d.Loose)
    (open_run : ¬ d.ended)
    (early : ∀ job, readJobAt s .working (ini job_id) = some job → job.attempt.toNat < 1000) :
    (abandonCiJob host job_id token runner).wp (Keeping project id d) (fun _ => Keeping project id d)
      (fun _ => Keeping project id d) s := by
  unfold abandonCiJob
  split
  · exact h
  · simp only [wp_bind, wp_gets]
    split
    · exact h
    · rw [wp_bind]
      exact wp_mono (requeueLocked_keeps host h loose open_run fun job read _ => early job read) (fun _ kept => kept)
        (fun _ _ kept => kept) fun _ _ kept => kept

theorem reapEntry_keeps {options : CiReapOptions} (loose : d.Loose) (open_run : ¬ d.ended)
    (limited : options.limit.toNat ≤ 1000) (name : Bytes) : Keep project id d (reapEntry host options name) := by
  intro s h
  unfold reapEntry
  simp only
  split
  · exact h
  · simp only [wp_bind, wp_gets]
    split
    · rw [wp_bind]
      refine wp_mono (requeueLocked_keeps host h loose open_run fun job _ more => ?_) (fun _ kept => kept)
        (fun _ _ kept => kept) fun _ _ kept => kept
      have below : job.attempt < options.limit := by simpa using more
      exact (UInt32.lt_iff_toNat_lt.mp below).trans_le limited
    · exact h

theorem reapCiLeases_keeps {options : CiReapOptions} (loose : d.Loose) (open_run : ¬ d.ended)
    (limited : options.limit.toNat ≤ 1000) : Keep project id d (reapCiLeases host options) := by
  apply (Keeps.gets _).bind
  intro names
  exact Keeps.accumulate fun _ name => (reapEntry_keeps host loose open_run limited name).bind fun _ => Keeps.pure _

theorem Keeping.remove_run (h : Keeping project id d s) {owner run : Bytes} {file : RunFile} (other : owner ≠ project) :
    Keeping project id d (s.remove (.run owner run file)) := by
  have queue : ∀ directory name, (s.remove (.run owner run file)).get (.queue directory name)
      = s.get (.queue directory name) := fun _ _ => Files.get_remove_ne (by simp)
  have record : (s.remove (.run owner run file)).get (.run project id .record) = s.get (.run project id .record) := by
    apply Files.get_remove_ne
    intro equal
    injection equal with equal
    exact other equal.symm
  -- A file of that run that is still there is not the one that went.
  have there : ∀ path, (s.remove (.run owner run file)).get path = s.get path
      ∨ (s.remove (.run owner run file)).get path = none := by
    intro path
    by_cases gone : path = .run owner run file
    · exact .inr (gone ▸ Files.get_remove_self)
    · exact .inl (Files.get_remove_ne gone)
  have somewhere : ∀ {pending}, Somewhere project id s pending →
      Somewhere project id (s.remove (.run owner run file)) pending := fun there =>
    there.same (Safe.same (fun _ _ => queue _ _) record) fun _ => queue _ _
  refine h.change (fun _ _ _ => .inl (queue _ _)) (fun other name => (there _).imp_right fun gone again loaded => ?_)
    (fun _ => .inl (queue _ _)) (fun other name => (there _).imp_right fun gone bytes group read => ?_) somewhere
    (fun asked => somewhere (h.due_kept asked)) ?_ fun asked => (h.ended_kept asked).same record
  · unfold loadCiRun at loaded
    split at loaded
    · obtain ⟨_, present, _⟩ := Files.readAs_some.mp loaded
      rw [gone] at present
      cases present
    · cases loaded
  · obtain ⟨_, present, _⟩ := capped_some read
    rw [gone] at present
    cases present
  · rw [show working (s.remove _) = working s from funext fun name => queue _ _]
    exact h.work_kept

/-- The children of another project's workflow are other jobs. -/
theorem removeGroup_keeps {owner : Bytes} (free : ∀ files, d.work files)
    (other : owner ≠ project) (file : Bytes) : Keep project id d (removeGroup owner file) := by
  intro s h
  simp only [removeGroup, wp_bind]
  refine wp_reads (fun held read => ?_) fun _ _ => h
  cases held with
  | none => exact h
  | some bytes =>
    simp only [wp_bind]
    refine wp_ofExcept (fun group parsed => ?_) fun _ _ => h
    refine wp_whenever (fun theirs => ?_) fun _ => h
    obtain ⟨_, spares⟩ := h.journals file bytes group read parsed
    obtain ⟨formed, _⟩ := validateWorkflowGroup_iff.mp (parsed_group parsed).1
    have apart : ∀ child ∈ group.children, child.job_id ≠ id := by
      intro child inside mine
      have consistent := formed.consistent child inside
      have same : child.project_name = group.parent.project_name :=
        by_contra fun wrong => consistent (.inr (.inl wrong))
      exact other (theirs.symm.trans (same.symm.trans (spares child inside mine)))
    have unlisted : ¬ Lists id group := by
      rintro ⟨child, inside, mine⟩
      exact apart child inside mine
    have kept := h.without read parsed unlisted
    have under : ∀ t, Keeping project id (d.except file) t → Keeping project id d t := fun _ => Keeping.besides
    rw [wp_bind]
    refine wp_mono (wp_forEach (fun child inside t kept => ?_) kept) under (fun _ t kept => ?_) fun _ => under
    · refine wp_forEach (fun directory listed => Keeps.modify fun t kept => ?_) kept
      by_cases queued : Queued directory
      · exact kept.remove_job queued (fun named => absurd (ini_injective named) (apart child inside)) fun _ => free _
      · have lease : directory = .leases := by
          simp only [Queued, List.mem_cons, List.not_mem_nil, or_false] at listed queued
          tauto
        subst lease
        exact kept.remove_other lease_other
    · have gone := kept.remove_unlisted
      exact ⟨gone, gone⟩

theorem removeProjectCi_keeps {owner : Bytes} (free : ∀ files, d.work files)
    (other : owner ≠ project) : Keep project id d (removeProjectCi host owner) := by
  apply (Keeps.ofExcept _).bind
  intro _
  apply (Keeps.gets _).bind
  intro files
  apply (Keeps.forEach fun file => removeGroup_keeps free other file).bind
  intro _ s h
  simp only [removeRuns, wp_bind, wp_gets]
  refine wp_forEach (fun path inside => Keeps.modify fun t kept => ?_) h
  obtain ⟨_, theirs⟩ := List.mem_filter.mp inside
  cases path with
  | queue directory name => cases theirs
  | run owner' run file =>
    obtain rfl : owner' = owner := by simpa using theirs
    exact kept.remove_run other

end

/-- Between two operations every journal counts, and nothing else is asked of the job. -/
def calm (due : Prop) : Demand where
  due
  pending := fun _ => True
  work := fun _ => True
  ended := False

/-- What a process does to the CI state. -/
inductive Action where
  | call (call : Locking.Call)
  | releaseCiJob (job_id : Bytes)
  | writeCiRunRecord (record : CiRunRecord)
  | requestCiCancel (project_name run_id : Bytes)

def Action.op (host : Host) (action : Action) : Op Unit :=
  match action with
  | .call operation => operation.op host
  | .releaseCiJob job_id => Store.releaseCiJob job_id
  | .writeCiRunRecord record => Store.writeCiRunRecord host record
  | .requestCiCancel project_name run_id => Locking.ignore (Store.requestCiCancel host project_name run_id)

/-- What the callers of the store observe around one job. -/
def Observed (project id : Bytes) (s : Files) (action : Action) : Prop :=
  match action with
  | .call (.enqueue request) => Usual project id request
  | .call (.submit parent children) => ReadableGroup { parent, children } ∧ Spares project id { parent, children }
  -- Only a run that has ended is released.
  | .call (.release job_id token) => job_id = id → heldUnder s job_id token → Ended project id s
  | .releaseCiJob job_id => job_id = id → Ended project id s
  -- The attempts of a record end at 1000.
  | .call (.abandon job_id _ _) => ∀ job, readJobAt s .working (ini job_id) = some job → job.attempt.toNat < 1000
  | .call (.reap options) => options.limit.toNat ≤ 1000
  | .call (.remove project_name) => project_name ≠ project
  -- A run goes on only while its job is queued or claimed.
  | .writeCiRunRecord record => Recordable project id record ∧ (Tracks project id record →
      ciRunStatusIsActive record.status = true → Ended project id s → FilePresent id s)
  | .call .refresh | .call (.claim _) | .call (.renew ..) | .requestCiCancel .. => True

/-- Whether the action hands the job to the store. -/
def Action.brings (action : Action) (id : Bytes) : Prop :=
  match action with
  | .call operation => operation.brings id
  | .releaseCiJob _ | .writeCiRunRecord _ | .requestCiCancel .. => False

variable {due safe : Prop}

theorem calm_counts : ((calm due).settled safe).Counts project id := by
  intro t name kept journal
  by_cases settled : safe
  · exact .inl (kept.safe settled)
  · exact .inr ⟨name, ⟨trivial, settled⟩, journal⟩

theorem calm_loose : ((calm due).settled safe).Loose := ⟨fun _ _ _ => trivial, fun _ _ _ _ => trivial⟩

theorem Keeping.owes {now : Prop} (h : Keeping project id d s) (never : ¬ now) : Keeping project id (d.owed now) s :=
  { h with due_kept := fun asked => asked.elim h.due_kept fun wrong => absurd wrong never }

theorem wp_ignore {α : Type} {p : Op α} {crash after : Files → Prop}
    (h : p.wp crash (fun _ => after) (fun _ => crash) s) :
    (Locking.ignore p).wp crash (fun _ => after) (fun _ => crash) s := by
  rw [Locking.ignore, wp_bind]
  exact h

theorem releaseCiJob_wp {job_id : Bytes} (h : Keeping project id d s) (free : ∀ files, d.work files)
    (finished : job_id = id → Ended project id s) :
    (releaseCiJob job_id).wp (Keeping project id d) (fun _ => Keeping project id d)
      (fun _ => Keeping project id d) s := by
  simp only [releaseCiJob, wp_bind]
  refine wp_ofExcept (fun _ _ => ?_) fun _ _ => h
  have gone := h.unlink_claim free finished
  have unleased := @Keeping.remove_other _ _ _ _ gone (.queue .leases (ini job_id)) lease_other
  exact ⟨gone, unleased, unleased⟩

/-- Every write of an action keeps the job, and one that brings it makes it due. -/
theorem Action.keeps {action : Action} (host : Host) (observed : Observed project id s action)
    (h : Keeping project id ((calm due).settled safe) s) :
    (action.op host).wp (Keeping project id ((calm due).settled safe))
      (fun _ => Keeping project id (((calm due).settled safe).owed (action.brings id)))
      (fun _ => Keeping project id ((calm due).settled safe)) s := by
  have counts := @calm_counts project id due safe
  have free : ∀ files, ((calm due).settled safe).work files := fun _ => trivial
  have loose := @calm_loose due safe
  have open_run : ¬ ((calm due).settled safe).ended := not_false
  have quiet : ∀ {p : Op Unit}, ¬ action.brings id →
      p.wp (Keeping project id ((calm due).settled safe)) (fun _ => Keeping project id ((calm due).settled safe))
        (fun _ => Keeping project id ((calm due).settled safe)) s →
      p.wp (Keeping project id ((calm due).settled safe))
        (fun _ => Keeping project id (((calm due).settled safe).owed (action.brings id)))
        (fun _ => Keeping project id ((calm due).settled safe)) s := fun never kept =>
    wp_mono kept (fun _ kept => kept) (fun _ _ kept => kept.owes never) fun _ _ kept => kept
  cases action with
  | call operation =>
    cases operation with
    | enqueue request => exact enqueueCiJob_wp host h open_run observed
    | submit parent children => exact enqueueCiWorkflowJobs_wp host h counts observed.1 observed.2
    | refresh => exact quiet not_false (reconcileWorkflowGroups_keeps host counts s h)
    | claim options => exact quiet not_false (wp_ignore (claimCiJob_keeps host free counts options s h))
    | renew job_id token lease_seconds =>
      exact quiet not_false (wp_ignore (renewCiLease_keeps host job_id token lease_seconds s h))
    | release job_id token => exact quiet not_false (wp_ignore (releaseCiClaim_wp host h free counts observed))
    | abandon job_id token runner => exact quiet not_false (wp_ignore (abandonCiJob_wp host h loose open_run observed))
    | reap options => exact quiet not_false (wp_ignore (reapCiLeases_keeps host loose open_run observed s h))
    | remove owner => exact quiet not_false (removeProjectCi_keeps host free observed s h)
  | releaseCiJob job_id => exact quiet not_false (releaseCiJob_wp h free observed)
  | writeCiRunRecord record =>
    refine quiet not_false (wp_mono (writeCiRunRecord_wp host observed.1 h fun mine active =>
      ⟨open_run, observed.2 mine active⟩) (fun _ kept => kept) (fun _ _ after => after.2.under) ?_)
    rintro _ _ ⟨_, rfl⟩
    exact h
  | requestCiCancel owner run => exact quiet not_false (wp_ignore (requestCiCancel_keeps host owner run s h))

/-- An action that runs to its end, or is cut after some of its writes. -/
structure Event where
  host : Host
  action : Action
  cut : Option Nat := none

def Event.after (event : Event) (s : Files) : Files :=
  match event.cut with
  | none => ((event.action.op event.host).exec s).2
  | some writes => (event.action.op event.host).cutAfter writes s

def Event.returned (event : Event) (s : Files) : Prop :=
  event.cut = none ∧ ((event.action.op event.host).exec s).1 = .ok ()

/-- The event brings the job, and its operation returned. -/
def Event.accepts (event : Event) (id : Bytes) (s : Files) : Prop := event.action.brings id ∧ event.returned s

/-- The event reconciles every journal. -/
def Event.refreshes (event : Event) (s : Files) : Prop := event.action = .call .refresh ∧ event.returned s

def play (events : List Event) (s : Files) : Files := events.foldl (fun t event => event.after t) s

/-- What the callers observe throughout a run. -/
def Throughout (project id : Bytes) (s : Files) (events : List Event) : Prop :=
  match events with
  | [] => True
  | event :: rest => Observed project id s event.action ∧ Throughout project id (event.after s) rest

theorem Event.after_returned {event : Event} (whole : event.cut = none) :
    event.after s = ((event.action.op event.host).exec s).2 := by
  rw [Event.after, whole]

/-- An event keeps the job; it is due once it was accepted. -/
theorem Event.keeps {event : Event} (observed : Observed project id s event.action)
    (h : Keeping project id ((calm due).settled safe) s) :
    Keeping project id ((calm (due ∨ event.accepts id s)).settled safe) (event.after s) := by
  have kept := Action.keeps event.host observed h
  have otherwise : ∀ {t}, Keeping project id ((calm due).settled safe) t → ¬ event.accepts id s →
      Keeping project id ((calm (due ∨ event.accepts id s)).settled safe) t := fun kept never =>
    kept.weaken (fun asked => asked.imp_left fun due => due.resolve_right never) (fun _ still => still)
      (fun _ known => known) fun asked => asked
  cases cut : event.cut with
  | none =>
    rw [Event.after_returned cut]
    have reached := wp_exec kept
    cases outcome : (event.action.op event.host).exec s with
    | mk result t =>
      rw [outcome] at reached
      cases result with
      | ok _ =>
        refine reached.weaken (fun asked => ?_) (fun _ still => still) (fun _ known => known) fun asked => asked
        rcases asked with (asked | accepted) | settled
        · exact .inl (.inl asked)
        · exact .inr accepted.1
        · exact .inl (.inr settled)
      | error error =>
        refine otherwise reached fun accepted => ?_
        have returned := accepted.2.2
        rw [outcome] at returned
        cases returned
  | some writes =>
    have never : ¬ event.accepts id s := by
      rintro ⟨_, whole, _⟩
      rw [cut] at whole
      cases whole
    rw [Event.after, cut]
    refine otherwise ?_ never
    rcases cutAfter_crashes (event.action.op event.host) writes s with same | crash
    · show Keeping project id _ ((event.action.op event.host).cutAfter writes s)
      rw [same]
      exact h
    · exact wp_crashes kept _ crash

/-- A job that is due is safe behind a refresh. -/
theorem Event.brings {event : Event} (observed : Observed project id s event.action)
    (h : Keeping project id ((calm True).settled safe) s) (refreshed : event.refreshes s) :
    Keeping project id ((calm True).settled True) (event.after s) := by
  obtain ⟨refresh, whole, returned⟩ := refreshed
  have kept := Event.keeps observed h
  have brought : Safe project id (event.after s) := by
    rw [Event.after_returned whole]
    have reached := wp_exec (reconcileWorkflowGroups_brings (d := (calm True).settled safe) event.host (.inl trivial) h)
    have operation : event.action.op event.host = reconcileWorkflowGroups event.host := by
      rw [refresh]
      rfl
    rw [operation] at returned ⊢
    cases outcome : (reconcileWorkflowGroups event.host).exec s with
    | mk result t =>
      rw [outcome] at reached returned
      cases result with
      | ok _ => exact reached
      | error error => cases returned
  have calm_kept : Keeping project id (calm True) (event.after s) :=
    kept.unsettled.weaken (fun _ => .inl trivial) (fun _ still => still) (fun _ known => known) fun asked => asked
  exact calm_kept.settle fun _ => brought

theorem play_keeps {events : List Event} (observed : Throughout project id s events)
    (h : Keeping project id ((calm due).settled safe) s) :
    Keeping project id ((calm due).settled safe) (play events s) := by
  induction events generalizing s with
  | nil => exact h
  | cons event rest ih =>
    apply ih observed.2
    exact (Event.keeps observed.1 h).weaken (fun asked => asked.imp_left .inl) (fun _ still => still)
      (fun _ known => known) fun asked => asked

theorem throughout_append {earlier later : List Event} : Throughout project id s (earlier ++ later)
    ↔ Throughout project id s earlier ∧ Throughout project id (play earlier s) later := by
  induction earlier generalizing s with
  | nil => exact ⟨fun held => ⟨trivial, held⟩, And.right⟩
  | cons event rest ih => exact (and_congr_right fun _ => ih).trans and_assoc.symm

theorem play_append (earlier later : List Event) (s : Files) :
    play (earlier ++ later) s = play later (play earlier s) := List.foldl_append

/-- The empty store keeps every job. -/
theorem empty_keeps : Keeping project id ((calm False).settled False) ∅ where
  filed _ _ _ _ read := by cases read
  clean _ _ present := by cases present
  record _ _ _ loaded := by
    unfold loadCiRun at loaded
    split at loaded <;> cases loaded
  roomy _ loaded := by
    unfold loadCiRun at loaded
    split at loaded <;> cases loaded
  journals _ _ _ read := by cases read
  published _ _ _ _ read := by cases read
  due_kept asked := (or_self_iff.mp asked).elim
  work_kept := trivial
  ended_kept := False.elim

section
variable {earlier later : List Event} {event : Event}

theorem accepted_due (observed : Throughout project id ∅ (earlier ++ event :: later))
    (accepted : event.accepts id (play earlier ∅)) :
    Keeping project id ((calm True).settled False) (play (earlier ++ event :: later) ∅) := by
  obtain ⟨before, now, rest⟩ := throughout_append.mp observed
  have first := Event.keeps now (play_keeps before empty_keeps)
  rw [play_append]
  apply play_keeps rest
  exact first.weaken (fun _ => .inl (.inr accepted)) (fun _ still => still) (fun _ known => known) fun asked => asked

/-- A job that was accepted stays: whatever runs, and wherever it is cut. -/
theorem accepted_job_kept (observed : Throughout project id ∅ (earlier ++ event :: later))
    (accepted : event.accepts id (play earlier ∅)) :
    Somewhere project id (play (earlier ++ event :: later) ∅) fun _ => True :=
  ((accepted_due observed accepted).due_kept (.inl trivial)).mono fun _ _ => trivial

/-- Once the journals were reconciled it needs none of them: it is queued or claimed, or its run has ended. -/
theorem refreshed_job_safe {between : List Event} {refresh : Event}
    (observed : Throughout project id ∅ (earlier ++ event :: (between ++ refresh :: later)))
    (accepted : event.accepts id (play earlier ∅))
    (refreshed : refresh.refreshes (play (earlier ++ event :: between) ∅)) :
    Safe project id (play (earlier ++ event :: (between ++ refresh :: later)) ∅) := by
  have shape : earlier ++ event :: (between ++ refresh :: later)
      = (earlier ++ event :: between) ++ refresh :: later := by
    simp
  rw [shape] at observed ⊢
  obtain ⟨before, now, rest⟩ := throughout_append.mp observed
  have brought := Event.brings now (accepted_due before accepted) refreshed
  rw [play_append]
  exact (play_keeps rest brought).safe trivial

end

private theorem firstJob_usual : Usual (ascii "p") (ascii "1") firstJob :=
  ⟨fun _ => rfl, ⟨by decide +kernel, by decide +kernel, by decide +kernel, by decide +kernel, by decide +kernel,
    by decide +kernel, by decide +kernel, by decide +kernel, by decide +kernel⟩, by decide +kernel⟩

def acceptFirst : Event := ⟨firstHost, .call (.enqueue firstJob), none⟩

/-- A claim that dies after its first write. -/
def cutClaim : Event := ⟨firstHost, .call (.claim { runner := ascii "r", lease_seconds := 60 }), some 1⟩

def refreshAll : Event := ⟨firstHost, .call .refresh, none⟩

def reapAll : Event := ⟨firstHost, .call (.reap { max_attempts := 3 }), none⟩

private theorem reapAll_observed : Observed (ascii "p") (ascii "1") s reapAll.action := by
  have limited : (CiReapOptions.limit { max_attempts := 3 }).toNat ≤ 1000 := by decide
  exact limited

private theorem first_accepted : acceptFirst.accepts (ascii "1") (play [] ∅) :=
  ⟨rfl, rfl, returned_of_isOk (by decide +kernel)⟩

theorem accepted_job_kept_cut :
    Somewhere (ascii "p") (ascii "1") (play ([] ++ acceptFirst :: [cutClaim, reapAll]) ∅) fun _ => True :=
  accepted_job_kept ⟨firstJob_usual, trivial, reapAll_observed, trivial⟩ first_accepted

private theorem firstWorkflow_readable : ReadableGroup firstWorkflow := by
  intro job inside
  rcases List.mem_cons.mp inside with rfl | inside
  · exact ⟨⟨by decide +kernel, by decide +kernel, by decide +kernel, by decide +kernel, by decide +kernel,
      by decide +kernel, by decide +kernel, by decide +kernel, by decide +kernel⟩, by decide +kernel⟩
  · obtain rfl := List.mem_singleton.mp inside
    exact ⟨⟨by decide +kernel, by decide +kernel, by decide +kernel, by decide +kernel, by decide +kernel,
      by decide +kernel, by decide +kernel, by decide +kernel, by decide +kernel⟩, by decide +kernel⟩

private theorem firstWorkflow_spares : Spares (ascii "p") (ascii "1") firstWorkflow := by
  refine ⟨by decide +kernel, fun child inside _ => ?_⟩
  rw [List.mem_singleton.mp inside]
  rfl

/-- The submission of the workflow, to its end or cut off after some writes. -/
def submitFirst (cut : Option Nat) : Event :=
  ⟨firstHost, .call (.submit firstWorkflow.parent firstWorkflow.children), cut⟩

/-- A claim of a workflow's job that dies between the move and the lease. -/
def cutMove : Event :=
  ⟨firstHost, .call (.claim { protocol_version := 2, runner := ascii "r", lease_seconds := 60 }), some 2⟩

/-- A refresh that dies after its first write. -/
def cutRefresh : Event := { refreshAll with cut := some 1 }

private theorem cut_table :
    (((submitFirst none).action.op firstHost).exec (play [submitFirst (some 4)] ∅)).1.isOk = true
    ∧ ((refreshAll.action.op firstHost).exec
      (play ([submitFirst (some 4)] ++ submitFirst none :: [cutMove, cutRefresh]) ∅)).1.isOk = true := by
  decide +kernel

/-- The submission dies while it queues the job and is made again; a claim and a refresh die
before the refresh that returns. -/
theorem refreshed_job_safe_cut :
    Safe (ascii "p") (ascii "1") (play ([submitFirst (some 4)] ++ submitFirst none
      :: ([cutMove, cutRefresh] ++ refreshAll :: [reapAll])) ∅) := by
  have observed : ∀ cut s, Observed (ascii "p") (ascii "1") s (submitFirst cut).action := fun _ _ =>
    ⟨firstWorkflow_readable, firstWorkflow_spares⟩
  have accepted : (submitFirst none).accepts (ascii "1") (play [submitFirst (some 4)] ∅) :=
    ⟨⟨_, List.mem_singleton_self _, rfl⟩, rfl, returned_of_isOk cut_table.1⟩
  exact refreshed_job_safe ⟨observed _ _, observed _ _, trivial, trivial, trivial, reapAll_observed, trivial⟩ accepted
    ⟨rfl, rfl, returned_of_isOk cut_table.2⟩

end CkGit.Store
