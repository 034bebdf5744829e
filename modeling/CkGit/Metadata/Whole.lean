import CkGit.Metadata.Restart

/-!
Removal of a project's metadata over every state: what a returned call leaves,
that a refused one changes nothing, and when a call that was cut off can be
repeated.
-/
namespace CkGit.Metadata
open CkGit.Base CkGit.Ci CkGit.Events

def run (project_name : Bytes) (state : MetadataState) : Except String Unit × MetadataState :=
  (removeProjectMetadata project_name false).exec state

/-- The records of exactly this project are gone and every log holds its former events of
other projects in their former order. -/
structure Removed (project_name : Bytes) (state after : MetadataState) : Prop where
  records_gone : ∀ path, Below (recordPaths project_name) path → after.tree.entry path = none
  records_kept : ∀ path, ¬ Below (recordPaths project_name) path → after.tree.entry path = state.tree.entry path
  root : after.is_private = state.is_private
  log_names : after.logNames = state.logNames
  logs : ∀ name ∈ state.logNames, ∃ events, readLog name state = .ok events
    ∧ readLog name after = .ok (others project_name events)
  untouched : ∀ name ∈ state.logNames, holds project_name (state.content name) = false →
    after.content name = state.content name
  /-- Entries stay, and so does every file that is not a log. -/
  files : ∃ change, after.events = (state.mapLogs change).events ∧ ∀ directory, state.events = some directory →
    (change directory.logs).entries = directory.logs.entries
      ∧ ∀ i : Nat, (∀ name ∈ state.logNames, directory.logs.find name ≠ some i) →
        (change directory.logs).files[i]? = directory.logs.files[i]?

/-- What any number of calls that were cut off may leave. -/
inductive Interrupted (project_name : Bytes) (state : MetadataState) : MetadataState → Prop where
  | start : Interrupted project_name state state
  | again {before after : MetadataState} (earlier : Interrupted project_name state before)
      (cut : after ∈ (removeProjectMetadata project_name false).crashes before) :
      Interrupted project_name state after

structure RemovesWhole (project_name : Bytes) (state : MetadataState) : Prop where
  exact : ∀ after, run project_name state = (.ok (), after) → Removed project_name state after
  whole : ∀ error after, run project_name state = (.error error, after) → after = state
  restart : ∀ after, Interrupted project_name state after → run project_name after = run project_name state

section
variable {project_name : Bytes} {state after : MetadataState}

theorem run_valid (valid : Valid project_name state) :
    run project_name state = (.ok (), finished project_name state) :=
  Prog.exec_of_wp (remove_valid valid)

theorem finished_removed (valid : Valid project_name state) :
    Removed project_name state (finished project_name state) where
  records_gone path gone := Tree.entry_gone gone
  records_kept path stays := Tree.entry_kept stays
  root := rfl
  log_names := logNames_scrub
  logs := by
    intro name listed
    obtain ⟨events, read⟩ := valid.logs.readable name listed
    obtain ⟨fits, parsed⟩ := readLog_ok.mp read
    have same : (finished project_name state).content name = kept project_name (state.content name) :=
      content_scrub listed
    refine ⟨events, read, readLog_ok.mpr ⟨?_, ?_⟩⟩
    · rw [same]
      exact (kept_length _ _).trans fits
    · rw [same]
      exact parse_kept parsed
  untouched := by
    intro name listed none_held
    have same : (finished project_name state).content name = kept project_name (state.content name) :=
      content_scrub listed
    rw [same, kept_of_none none_held]
  files := by
    refine ⟨scrubbed project_name state.logNames, rfl, fun directory _ => ⟨scrubbed_entries, fun i free => ?_⟩⟩
    rw [scrubbed_files, if_neg]
    rintro ⟨name, listed, found⟩
    exact free name listed found

theorem partial_valid (valid : Valid project_name state) (cut : Partial project_name state after) :
    Valid project_name after := by
  obtain ⟨removed, names, below, _, rfl⟩ := cut
  refine ⟨valid.name, valid.root, ⟨fun directory there => ?_, fun name listed => ?_⟩, fun directory_name listed => ?_⟩
  · obtain ⟨former, known, rfl⟩ := Option.map_eq_some_iff.mp there
    exact valid.logs.closed former known
  · rw [logNames_scrub] at listed
    obtain ⟨events, read⟩ := valid.logs.readable name listed
    have unlinked : readLog name (state.remove removed) = .ok events := read
    obtain ⟨later, now, _⟩ := @read_scrubbed project_name name _ events names unlinked
    exact ⟨later, now⟩
  · obtain ⟨⟨present, opened⟩, removable⟩ := valid.records directory_name listed
    have same : (state.tree.remove removed).entry [directory_name] = state.tree.entry [directory_name] := by
      refine Tree.entry_kept ?_
      rintro ⟨path, member, above⟩
      obtain ⟨start, record, higher⟩ := below path member
      obtain ⟨other, _, rfl⟩ := List.mem_map.mp record
      have long := (higher.trans above).length_le
      simp [recordPath] at long
    refine ⟨⟨present, ?_⟩, removable.remove⟩
    unfold MetadataState.openPrivateDirectoryAt at opened ⊢
    rw [show ((state.remove removed).scrub project_name names).tree.entry [directory_name]
      = state.tree.entry [directory_name] from same]
    exact opened

theorem partial_settled (settled : AllSettled project_name state) (cut : Partial project_name state after) :
    AllSettled project_name after := by
  obtain ⟨removed, names, _, _, rfl⟩ := cut
  intro name listed held
  rw [logNames_scrub] at listed
  rcases @content_scrub_either project_name name names (state.remove removed) with same | same
  · rw [same] at held ⊢
    exact settled name listed held
  · rw [same, holds_kept] at held
    cases held

theorem partial_finished (cut : Partial project_name state after) :
    finished project_name after = finished project_name state := by
  obtain ⟨removed, names, below, listed, rfl⟩ := cut
  have unlinked : (state.remove removed).remove (recordPaths project_name) = state.remove (recordPaths project_name) :=
    remove_above below
  calc finished project_name ((state.remove removed).scrub project_name names)
      = (((state.remove removed).remove (recordPaths project_name)).scrub project_name names).scrub project_name
          state.logNames := by
        unfold finished
        rw [logNames_scrub]
        rfl
    _ = (state.remove (recordPaths project_name)).scrub project_name (names ++ state.logNames) := by
        rw [unlinked, scrub_scrub]
    _ = finished project_name state := by
        refine (scrub_congr (fun name member => List.mem_append_right _ member) fun name member => ?_).symm
        exact .inl ((List.mem_append.mp member).elim (listed name) id)

theorem interrupted_settled (valid : Valid project_name state) (settled : AllSettled project_name state)
    (cut : Interrupted project_name state after) :
    Valid project_name after ∧ AllSettled project_name after
      ∧ finished project_name after = finished project_name state := by
  induction cut with
  | start => exact ⟨valid, settled, rfl⟩
  | again _ cut ih =>
    obtain ⟨valid_before, settled_before, same⟩ := ih
    have shape := Prog.wp_crashes (remove_valid valid_before) _ cut settled_before
    exact ⟨partial_valid valid_before shape, partial_settled settled_before shape, (partial_finished shape).trans same⟩

/-- A refused call shows nothing but its start. -/
theorem interrupted_invalid (invalid : ¬ Valid project_name state) (cut : Interrupted project_name state after) :
    after = state := by
  induction cut with
  | start => rfl
  | again _ cut ih =>
    subst ih
    exact (Prog.wp_crashes (remove_invalid invalid) _ cut).elim

/-- The rewrites begin once the records are unlinked. -/
theorem scrub_crashes {replacements : List Bytes} (valid : Valid project_name state)
    (found : findReplacements project_name state = .ok replacements)
    (cut : after ∈ (Prog.forEach replacements (scrubLog project_name)).crashes (state.remove (recordPaths project_name))) :
    after ∈ (removeProjectMetadata project_name false).crashes state := by
  have dry : (removeRecords project_name true).exec state = (.ok (), state) :=
    Prog.exec_of_wp (Prog.wp_mono removeRecords_dry (fun _ dead => dead) (fun _ _ done => done.1)
      fun _ _ stuck => stuck.2 valid.records)
  have unlinked := Prog.exec_of_wp (removeRecords_real valid.records)
  have named : (Prog.ofExcept (rejectIf (¬ isValidProjectName project_name) "invalid project name for metadata removal") :
      Prog MetadataState String Unit).exec state = (.ok (), state) := by
    rw [rejectIf, if_neg (not_not.mpr valid.name)]
    rfl
  have rooted : (Prog.reads fun state => rejectIf (¬ state.is_private)
      "metadata state directory is not private and daemon-owned" : Prog MetadataState String Unit).exec state
        = (.ok (), state) := by
    show (Prog.ofExcept (rejectIf (¬ state.is_private)
      "metadata state directory is not private and daemon-owned")).exec state = _
    rw [rejectIf, if_neg (not_not.mpr valid.root)]
    rfl
  have chosen : (Prog.reads (findReplacements project_name) : Prog MetadataState String (List Bytes)).exec state
      = (.ok replacements, state) := by
    show (Prog.ofExcept _).exec state = _
    rw [found]
    rfl
  refine Prog.crashes_bind named (Prog.crashes_bind rooted (Prog.crashes_bind chosen (Prog.crashes_bind dry ?_)))
  rw [Prog.whenever, if_pos Bool.false_ne_true]
  exact Prog.crashes_bind unlinked cut

theorem settled_of_whole (valid : Valid project_name state) (law : RemovesWhole project_name state) :
    AllSettled project_name state := by
  obtain ⟨replacements, found⟩ := @findReplacements_valid project_name state valid.logs
  obtain ⟨_, chosen⟩ := findReplacements_ok found
  have loop : (Prog.forEach replacements (scrubLog project_name)).wp
      (fun after => run project_name after = run project_name state) (fun _ _ => True) (fun _ _ => True)
      ((state.remove (recordPaths project_name)).scrub project_name []) := by
    rw [scrub_none]
    exact Prog.wp_of_crashes fun after cut => law.restart after (.again .start (scrub_crashes valid found cut))
  have good : ∀ after, run project_name after = run project_name state → ∀ name ∈ replacements, ∀ events,
      parseEvents (state.content name) = .ok events →
      ∃ own, parseEvents (after.content name) = .ok own ∧ others project_name own = others project_name events := by
    intro after same name listed events parsed
    have member := ((chosen name).mp listed).1
    by_cases accepted : Valid project_name after
    · rw [run_valid accepted, run_valid valid, Prod.mk.injEq] at same
      have first := finished_removed accepted
      have second := finished_removed valid
      have names : after.logNames = state.logNames := by
        rw [← first.log_names, ← second.log_names, same.2]
      obtain ⟨own, read, left⟩ := first.logs name (names ▸ member)
      obtain ⟨former, read_former, left_former⟩ := second.logs name member
      rw [(readLog_ok.mp read_former).2] at parsed
      cases parsed
      rw [same.2, left_former] at left
      exact ⟨own, (readLog_ok.mp read).2, (Except.ok.inj left).symm⟩
    · rw [run_valid valid] at same
      have refused := Prog.wp_exec (remove_invalid accepted)
      rw [run] at same
      rw [same] at refused
      exact refused.elim
  intro name listed held
  have settled : ∀ name ∈ replacements, ((state.remove (recordPaths project_name)).scrub project_name []).content name
      = (state.remove (recordPaths project_name)).content name →
        Settled project_name ((state.remove (recordPaths project_name)).content name) :=
    settled_of_restart (fun name listed => valid.logs.readable name ((chosen name).mp listed).1)
      (fun name listed => ((chosen name).mp listed).2) good loop
  exact settled name ((chosen name).mpr ⟨listed, held⟩) (congrArg (MetadataState.content · name) scrub_none)

/-- A removal is exact and fails whole over every state. It can be repeated after every crash
exactly when, in each log that holds an event of the project, the other projects' lines come
first as they are written and the project's are all that follows. -/
theorem removes_whole_iff : RemovesWhole project_name state ↔
    (Valid project_name state → AllSettled project_name state) := by
  refine ⟨fun law valid => settled_of_whole valid law, fun settled => ?_⟩
  by_cases valid : Valid project_name state
  · refine ⟨fun after done => ?_, fun error after failed => ?_, fun after cut => ?_⟩
    · rw [run_valid valid] at done
      cases done
      exact finished_removed valid
    · rw [run_valid valid] at failed
      cases failed
    · obtain ⟨later, _, same⟩ := interrupted_settled valid (settled valid) cut
      rw [run_valid later, run_valid valid, same]
  · have refused := Prog.wp_exec (remove_invalid valid)
    refine ⟨fun after done => ?_, fun error after failed => ?_, fun after cut => ?_⟩
    · rw [run] at done
      rw [done] at refused
      exact refused.elim
    · rw [run] at failed
      rw [failed] at refused
      exact refused
    · rw [interrupted_invalid valid cut]

end

def pushed (project_name : Bytes) : StateEvent :=
  { epoch_seconds := 7, kind := ascii "push", project_name, client_id := ascii "c" }

/-- The live log holds an event of the project before one of another. -/
def twoEvents : MetadataState where
  is_private := true
  tree := { nodes := [], distinct := List.nodup_nil, placed := nofun }
  events := some
    { is_private := true
      logs := { entries := [(liveLog, 0)], files := [records [pushed (ascii "a"), pushed (ascii "b")]] }
      unsafe_names := [] }

private theorem twoEvents_logs : twoEvents.logNames = [liveLog] := by
  show List.mergeSort [liveLog] (fun a b => !textBefore (key b) (key a)) = _
  exact List.mergeSort_singleton _

private theorem twoEvents_table : ValidEvent (pushed (ascii "a")) ∧ ValidEvent (pushed (ascii "b"))
    ∧ (records [pushed (ascii "a"), pushed (ascii "b")]).length ≤ kMaximumEventLogBytes
    ∧ (∀ event ∈ [pushed (ascii "a"), pushed (ascii "b")], (eventLine event).length ≤ kMaximumEventLineBytes)
    ∧ ¬ retained (ascii "a") [pushed (ascii "a"), pushed (ascii "b")]
      <+: records [pushed (ascii "a"), pushed (ascii "b")] := by
  decide

/-- The event of the other project is left twice, or cut, when the rewrite stops before its end. -/
theorem not_removes_whole : ¬ RemovesWhole (ascii "a") twoEvents := by
  intro law
  have readable : ∀ event ∈ [pushed (ascii "a"), pushed (ascii "b")], Readable event := by
    intro event member
    refine ⟨?_, twoEvents_table.2.2.2.1 event member⟩
    rcases List.mem_cons.mp member with rfl | second
    · exact twoEvents_table.1
    · rw [List.mem_singleton.mp second]
      exact twoEvents_table.2.1
  have parsed : parseEvents (twoEvents.content liveLog) = .ok [pushed (ascii "a"), pushed (ascii "b")] := by
    have whole := (parseEvents_behind readable).mpr ⟨[], (rfl : parseEvents [] = .ok []), List.append_nil _⟩
    rwa [List.append_nil] at whole
  have valid : Valid (ascii "a") twoEvents := by
    refine ⟨by decide, rfl, ⟨fun directory there => ?_, fun name listed => ?_⟩, fun directory_name _ => ?_⟩
    · cases there
      exact ⟨rfl, rfl⟩
    · rw [twoEvents_logs, List.mem_singleton] at listed
      subst listed
      exact ⟨_, readLog_ok.mpr ⟨twoEvents_table.2.2.1, parsed⟩⟩
    · exact ⟨⟨false, rfl⟩, .of_absent (List.cons_ne_nil _ _) rfl⟩
  have held : holds (ascii "a") (twoEvents.content liveLog) = true := by
    rw [holds_ok parsed]
    rfl
  have settled := removes_whole_iff.mp law valid liveLog (twoEvents_logs ▸ List.mem_singleton_self _) held
  exact twoEvents_table.2.2.2.2 (settled.front parsed)

end CkGit.Metadata
