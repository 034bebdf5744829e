import CkGit.Metadata.Exact

/-!
Runs of removeProjectMetadata that are cut off: what a later call makes of the
state they leave.
-/
namespace CkGit.Metadata
open CkGit.Base CkGit.Ci CkGit.Events

section
variable {project_name name : Bytes} {names : List Bytes} {state : MetadataState} {events : List StateEvent}
  {crash : MetadataState → Prop} {returned : Unit → MetadataState → Prop} {threw : String → MetadataState → Prop}

/-- New bytes over the old ones, as far as they go. -/
def splice (front content : Bytes) : Bytes := front ++ content.drop front.length

theorem overwrite_splice (front : Bytes) (byte : UInt8) :
    overwrite front.length byte ∘ splice front = splice (front ++ [byte]) := by
  refine funext fun content => ?_
  simp only [Function.comp, overwrite, splice, List.length_append, List.length_singleton]
  rw [List.take_left, List.drop_append, List.drop_eq_nil_of_le (Nat.le_succ _), List.nil_append,
    Nat.add_sub_cancel_left, List.drop_drop]
  simp

theorem truncate_splice (front : Bytes) : List.take front.length ∘ splice front = fun _ => front :=
  funext fun _ => List.take_left

theorem splice_begun {front content : Bytes} (start : front <+: content) : splice front content = content := by
  obtain ⟨rest, rfl⟩ := start
  rw [splice, List.drop_left]

/-- The rewrite shows every number of bytes written. -/
theorem writeAll_wp (rest front : Bytes) :
    (Prog.forEach (rest.zipIdx front.length) fun item =>
      (.modify (·.editLog name (overwrite item.2 item.1)) : Prog MetadataState String Unit)).wp crash returned threw
        (state.editLog name (splice front))
      ↔ (∀ count, 0 < count → count ≤ rest.length →
          crash (state.editLog name (splice (front ++ rest.take count))))
        ∧ returned () (state.editLog name (splice (front ++ rest))) := by
  induction rest generalizing front with
  | nil =>
    rw [List.append_nil]
    exact ⟨fun ended => ⟨fun count positive small => absurd small (Nat.not_le.mpr positive), ended⟩, fun ended => ended.2⟩
  | cons byte rest ih =>
    rw [List.zipIdx_cons, Prog.forEach, Prog.wp_bind, Prog.wp_modify, editLog_editLog, overwrite_splice]
    have later := ih (front ++ [byte])
    rw [List.length_append, List.length_singleton] at later
    rw [later]
    simp only [List.append_assoc, List.singleton_append]
    constructor
    · rintro ⟨first, others, ended⟩
      refine ⟨fun count positive small => ?_, ended⟩
      obtain ⟨count, rfl⟩ := Nat.exists_eq_succ_of_ne_zero (Nat.ne_of_gt positive)
      rcases Nat.eq_zero_or_pos count with rfl | more
      · exact first
      · rw [List.take_succ_cons]
        exact others count more (Nat.le_of_succ_le_succ small)
    · rintro ⟨every, ended⟩
      refine ⟨every 1 Nat.one_pos (Nat.succ_le_succ (Nat.zero_le _)), fun count positive small => ?_, ended⟩
      exact every (count + 1) (Nat.succ_pos _) (Nat.succ_le_succ small)

theorem scrubLog_wp (read : readLog name state = .ok events) :
    (scrubLog project_name name).wp crash returned threw state
      ↔ (∀ count, 0 < count → count ≤ (retained project_name events).length →
          crash (state.editLog name (splice ((retained project_name events).take count))))
        ∧ crash (state.editLog name fun _ => retained project_name events)
        ∧ returned () (state.editLog name fun _ => retained project_name events) := by
  have started : state.editLog name (splice []) = state := editLog_same rfl
  unfold scrubLog
  rw [Prog.wp_bind, Prog.reads, Prog.wp, read, Prog.ofExcept, Prog.wp_done, Prog.wp_bind, writeAll]
  have written := @writeAll_wp name state crash
    (fun _ => (Prog.modify (·.editLog name (·.take (retained project_name events).length)) :
      Prog MetadataState String Unit).wp crash returned threw) threw (retained project_name events) []
  rw [started] at written
  refine written.trans (and_congr_right fun _ => ?_)
  rw [Prog.wp_modify, List.nil_append, editLog_editLog, truncate_splice]

/-- In every log that holds an event of the project, its events come last. -/
def AllSettled (project_name : Bytes) (state : MetadataState) : Prop :=
  ∀ name ∈ state.logNames, holds project_name (state.content name) = true → Settled project_name (state.content name)

/-- A log of which nothing is left to do reads the same. -/
theorem read_scrubbed {earlier : List Bytes} (read : readLog name state = .ok events) :
    ∃ events', readLog name (state.scrub project_name earlier) = .ok events'
      ∧ others project_name events' = others project_name events := by
  obtain ⟨fits, parsed⟩ := readLog_ok.mp read
  rcases @content_scrub_either project_name name earlier state with same | same
  · exact ⟨events, readLog_ok.mpr ⟨same ▸ fits, same ▸ parsed⟩, rfl⟩
  · refine ⟨others project_name events, readLog_ok.mpr ⟨?_, ?_⟩, others_others⟩
    · rw [same]
      exact (kept_length _ _).trans fits
    · rw [same]
      exact parse_kept parsed

/-- A log that holds an event of the project is rewritten to what is kept of it, whichever of
its names came before. -/
theorem scrubLog_spec {earlier : List Bytes} (read : readLog name state = .ok events)
    (held : holds project_name (state.content name) = true) :
    (scrubLog project_name name).wp
      (fun after => Settled project_name (state.content name) →
        after = state.scrub project_name earlier ∨ after = state.scrub project_name (earlier ++ [name]))
      (fun _ after => after = state.scrub project_name (earlier ++ [name])) (fun _ _ => False)
      (state.scrub project_name earlier) := by
  obtain ⟨events', now, same_others⟩ := @read_scrubbed project_name name state events earlier read
  have parsed := (readLog_ok.mp read).2
  have same : retained project_name events' = kept project_name (state.content name) := by
    rw [kept_ok parsed, if_pos held, retained_records, same_others, retained_records]
  have last : (state.scrub project_name earlier).editLog name (fun _ => retained project_name events')
      = state.scrub project_name (earlier ++ [name]) := by
    rw [← scrub_scrub, scrub_one]
    refine editLog_congr ?_
    rw [same]
    rcases @content_scrub_either project_name name earlier state with plain | done
    · rw [plain]
    · rw [done, kept_kept]
  refine (scrubLog_wp now).mpr ⟨fun count _ _ settled => .inl (editLog_same (splice_begun ?_)), fun _ => .inr last, last⟩
  refine (List.take_prefix _ _).trans ?_
  rw [same]
  rcases @content_scrub_either project_name name earlier state with plain | done
  · rw [plain, kept_ok parsed, if_pos held]
    exact settled.front parsed
  · exact done.symm ▸ List.prefix_rfl

theorem scrubLogs_spec (readable : ∀ name ∈ names, ∃ events, readLog name state = .ok events)
    (held : ∀ name ∈ names, holds project_name (state.content name) = true) :
    (Prog.forEach names (scrubLog project_name)).wp
      (fun after => (∀ name ∈ names, Settled project_name (state.content name)) →
        ∃ earlier, (∀ name ∈ earlier, name ∈ names) ∧ after = state.scrub project_name earlier)
      (fun _ after => after = state.scrub project_name names) (fun _ _ => False) state := by
  have each : ∀ earlier name later, names = earlier ++ name :: later →
      ∀ now, now = state.scrub project_name earlier →
      (scrubLog project_name name).wp
        (fun after => (∀ name ∈ names, Settled project_name (state.content name)) →
          ∃ earlier, (∀ name ∈ earlier, name ∈ names) ∧ after = state.scrub project_name earlier)
        (fun _ after => after = state.scrub project_name (earlier ++ [name])) (fun _ _ => False) now := by
    rintro earlier name later split _ rfl
    have listed : name ∈ names := split ▸ List.mem_append_right _ List.mem_cons_self
    have known : ∀ other ∈ earlier ++ [name], other ∈ names := by
      intro other member
      rw [split]
      rcases List.mem_append.mp member with before | last
      · exact List.mem_append_left _ before
      · exact List.mem_append_right _ (List.mem_singleton.mp last ▸ List.mem_cons_self)
    obtain ⟨events, read⟩ := readable name listed
    refine Prog.wp_mono (scrubLog_spec read (held name listed)) ?_ (fun _ _ same => same) (fun _ _ dead => dead)
    intro after shape settled
    rcases shape (settled name listed) with same | same
    · exact ⟨earlier, fun other before => known other (List.mem_append_left _ before), same⟩
    · exact ⟨earlier ++ [name], known, same⟩
  exact Prog.wp_forEach_done each scrub_none.symm

/-- What the call checks before it changes anything. -/
structure Valid (project_name : Bytes) (state : MetadataState) : Prop where
  name : isValidProjectName project_name = true
  root : state.is_private = true
  logs : LogsValid state
  records : RecordsRemovable project_name state

/-- The state without the records and the events of the project. -/
def finished (project_name : Bytes) (state : MetadataState) : MetadataState :=
  (state.remove (recordPaths project_name)).scrub project_name state.logNames

/-- Some records are unlinked and some logs rewritten. -/
def Partial (project_name : Bytes) (state after : MetadataState) : Prop :=
  ∃ removed names, (∀ path ∈ removed, Below (recordPaths project_name) path)
    ∧ (∀ name ∈ names, name ∈ state.logNames) ∧ after = (state.remove removed).scrub project_name names

theorem remove_valid (valid : Valid project_name state) :
    (removeProjectMetadata project_name false).wp
      (fun after => AllSettled project_name state → Partial project_name state after)
      (fun _ after => after = finished project_name state) (fun _ _ => False) state := by
  obtain ⟨replacements, found⟩ := @findReplacements_valid project_name state valid.logs
  obtain ⟨_, chosen⟩ := findReplacements_ok found
  unfold removeProjectMetadata
  rw [Prog.wp_bind]
  refine Prog.wp_ofExcept (fun _ _ => ?_) (fun error failed => ?_)
  · rw [Prog.wp_bind]
    refine Prog.wp_reads (fun _ _ => ?_) (fun error failed => ?_)
    · rw [Prog.wp_bind]
      refine Prog.wp_reads (fun names read => ?_) (fun error failed => ?_)
      · rw [found] at read
        cases read
        rw [Prog.wp_bind]
        refine Prog.wp_mono removeRecords_dry (fun _ dead => dead.elim) ?_ ?_
        · rintro _ _ ⟨rfl, records⟩
          refine Prog.wp_whenever (fun _ => ?_) (fun skipped => absurd Bool.false_ne_true skipped)
          rw [Prog.wp_bind]
          refine Prog.wp_mono (removeRecords_real records) ?_ ?_ (fun _ _ dead => dead)
          · rintro after ⟨removed, below, rfl⟩ _
            exact ⟨removed, [], below, nofun, scrub_none.symm⟩
          · rintro _ _ rfl
            have readable : ∀ name ∈ replacements,
                ∃ events, readLog name (MetadataState.remove (recordPaths project_name) _) = .ok events :=
              fun name listed => valid.logs.readable name ((chosen name).mp listed).1
            refine Prog.wp_mono (scrubLogs_spec readable fun name listed => ((chosen name).mp listed).2) ?_ ?_
              (fun _ _ dead => dead)
            · intro after shape settled
              obtain ⟨earlier, known, same⟩ := shape fun name listed =>
                settled name ((chosen name).mp listed).1 ((chosen name).mp listed).2
              exact ⟨recordPaths project_name, earlier, fun path listed => below_self listed,
                fun name before => ((chosen name).mp (known name before)).1, same⟩
            · rintro _ _ rfl
              refine scrub_congr (fun name listed => ((chosen name).mp listed).1) fun name listed => ?_
              cases held : holds project_name (MetadataState.content _ name) with
              | false => exact .inr rfl
              | true => exact .inl ((chosen name).mpr ⟨listed, held⟩)
        · rintro _ _ ⟨rfl, stuck⟩
          exact stuck valid.records
      · rw [found] at failed
        cases failed
    · rw [rejectIf, if_neg (not_not.mpr valid.root)] at failed
      cases failed
  · rw [rejectIf, if_neg (not_not.mpr valid.name)] at failed
    cases failed

theorem remove_invalid (invalid : ¬ Valid project_name state) :
    (removeProjectMetadata project_name false).wp (fun _ => False) (fun _ _ => False)
      (fun _ after => after = state) state := by
  unfold removeProjectMetadata
  rw [Prog.wp_bind]
  refine Prog.wp_ofExcept (fun _ name => ?_) (fun error failed => rfl)
  rw [Prog.wp_bind]
  refine Prog.wp_reads (fun _ root => ?_) (fun error failed => rfl)
  rw [Prog.wp_bind]
  refine Prog.wp_reads (fun names read => ?_) (fun error failed => rfl)
  rw [Prog.wp_bind]
  refine Prog.wp_mono removeRecords_dry (fun _ dead => dead) ?_ (fun _ _ ⟨same, _⟩ => same)
  rintro _ _ ⟨rfl, records⟩
  rw [rejectIf_ok, not_not] at name root
  exact (invalid ⟨name, root, (findReplacements_ok read).1, records⟩).elim

theorem content_editLog {f : Bytes → Bytes} (filled : state.content name ≠ []) :
    (state.editLog name f).content name = f (state.content name) := by
  unfold MetadataState.content MetadataState.editLog MetadataState.mapLogs at *
  cases present : state.events with
  | none =>
    rw [present] at filled
    exact absurd rfl filled
  | some directory =>
    rw [present] at filled
    simp only [Option.map_some, EventDirectory.content, editFile_find] at filled ⊢
    cases found : directory.logs.find name with
    | none =>
      rw [found] at filled
      exact absurd rfl filled
    | some i =>
      rw [found, Option.bind_some] at filled
      rw [Option.bind_some, Option.bind_some, editFile_files, if_pos found]
      cases there : directory.logs.files[i]? with
      | none =>
        rw [there] at filled
        exact absurd rfl filled
      | some content => rfl

/-- A rewrite changes what another name reads only when both are names of one file. -/
theorem scrub_cases (earlier : List Bytes) (other : Bytes) :
    (state.scrub project_name (earlier ++ [name])).content other = (state.scrub project_name earlier).content other
      ∨ ∀ names, (state.scrub project_name names).content other = (state.scrub project_name names).content name := by
  unfold MetadataState.content MetadataState.scrub MetadataState.mapLogs
  cases state.events with
  | none => exact .inl rfl
  | some directory =>
    by_cases same : directory.logs.find name = directory.logs.find other
    · refine .inr fun names => ?_
      simp only [Option.map_some, EventDirectory.content, scrubbed_find, same]
    · refine .inl ?_
      simp only [Option.map_some, content_scrubbed, List.mem_append, List.mem_singleton, or_and_right, exists_or,
        exists_eq_left, same, or_false]

/-- Where every crash state still tells the events of the other projects, the logs are settled. -/
theorem settled_of_restart {earlier : List Bytes} (readable : ∀ name ∈ names, ∃ events, readLog name state = .ok events)
    (held : ∀ name ∈ names, holds project_name (state.content name) = true)
    (good : ∀ after, crash after → ∀ name ∈ names, ∀ events, parseEvents (state.content name) = .ok events →
      ∃ own, parseEvents (after.content name) = .ok own ∧ others project_name own = others project_name events)
    (loop : (Prog.forEach names (scrubLog project_name)).wp crash (fun _ _ => True) (fun _ _ => True)
      (state.scrub project_name earlier)) :
    ∀ name ∈ names, (state.scrub project_name earlier).content name = state.content name →
      Settled project_name (state.content name) := by
  induction names generalizing earlier with
  | nil => exact nofun
  | cons name rest ih =>
    obtain ⟨events, read⟩ := readable name List.mem_cons_self
    have parsed := (readLog_ok.mp read).2
    have own_held := held name List.mem_cons_self
    rw [Prog.forEach, Prog.wp_bind] at loop
    have first : (state.scrub project_name earlier).content name = state.content name →
        Settled project_name (state.content name) := by
      intro same
      have now : readLog name (state.scrub project_name earlier) = .ok events :=
        readLog_ok.mpr (same ▸ readLog_ok.mp read)
      obtain ⟨shown, _, _⟩ := (scrubLog_wp now).mp loop
      by_cases empty : retained project_name events = []
      · refine settled_of_tail parsed (by rw [empty]; exact parsed) fun event member => ?_
        by_contra different
        have kept_event := mem_others.mpr ⟨member, different⟩
        rw [retained_records, records, List.flatMap_eq_nil_iff] at empty
        have written := empty event kept_event
        simp [serializeEvent] at written
      · have crashed := shown (retained project_name events).length (List.length_pos_iff.mpr empty) (Nat.le_refl _)
        obtain ⟨own, after, same_others⟩ := good _ crashed name List.mem_cons_self events parsed
        have filled : (state.scrub project_name earlier).content name ≠ [] := by
          intro nothing
          rw [← same, nothing] at own_held
          cases own_held
        have readable_others : ∀ event ∈ others project_name events, Readable event := fun event member =>
          readable_of parsed event (mem_others.mp member).1
        rw [content_editLog filled, List.take_length, same, splice, retained_records] at after
        obtain ⟨later, left, rfl⟩ := (parseEvents_behind readable_others).mp after
        rw [others_append, others_others] at same_others
        refine settled_of_tail parsed left fun event member => ?_
        by_contra different
        have extra := mem_others.mpr ⟨member, different⟩
        rw [List.append_right_eq_self.mp same_others] at extra
        cases extra
    have later : (Prog.forEach rest (scrubLog project_name)).wp crash (fun _ _ => True) (fun _ _ => True)
        (state.scrub project_name (earlier ++ [name])) := by
      have both := Prog.wp_and loop (@scrubLog_spec project_name name state events earlier read own_held)
      have reached := Prog.exec_of_wp (Prog.wp_mono
        (@scrubLog_spec project_name name state events earlier read own_held) (fun _ shape => shape)
        (fun _ _ same => same) (fun _ _ dead => dead))
      have result := Prog.wp_exec both
      rw [reached] at result
      exact result.1
    intro other member unchanged
    rcases List.mem_cons.mp member with rfl | behind
    · exact first unchanged
    · rcases @scrub_cases project_name name state earlier other with same | shared
      · exact ih (fun other inside => readable other (List.mem_cons_of_mem _ inside))
          (fun other inside => held other (List.mem_cons_of_mem _ inside))
          (fun after crashed other inside => good after crashed other (List.mem_cons_of_mem _ inside)) later other
          behind (same.trans unchanged)
      · have origin : state.content other = state.content name := by
          have plain := shared []
          rwa [scrub_none] at plain
        rw [origin]
        exact first (by rw [← shared earlier, unchanged, origin])

end

end CkGit.Metadata
