import CkGit.Metadata.Scrub

/-!
A removal over a state it accepts: it returns, and what it leaves is the former
state without the records and the events of the project.
-/
namespace CkGit.Metadata
open CkGit.Base CkGit.Ci CkGit.Events

namespace MetadataState

/-- The bytes of a log. -/
def content (state : MetadataState) (name : Bytes) : Bytes :=
  match state.events with
  | none => []
  | some directory => directory.logs.content name

/-- The logs by their names. -/
def logNames (state : MetadataState) : List Bytes :=
  match state.events with
  | none => []
  | some directory => Events.eventLogNames directory.logs

/-- The state without the events of a project in these logs. -/
def scrub (project_name : Bytes) (names : List Bytes) (state : MetadataState) : MetadataState :=
  state.mapLogs (scrubbed project_name names)

end MetadataState

section
variable {project_name name : Bytes} {names more : List Bytes} {state : MetadataState} {f g : Bytes → Bytes}
  {events : List StateEvent}

/-- Changes that agree on the logs that are there change the state alike. -/
theorem mapLogs_congr {f g : EventDirectory → EventDirectory}
    (same : ∀ directory, state.events = some directory → f directory.logs = g directory.logs) :
    state.mapLogs f = state.mapLogs g := by
  unfold MetadataState.mapLogs
  cases found : state.events with
  | none => rfl
  | some directory => simp only [Option.map_some, same directory found]

theorem mapLogs_mapLogs {f g : EventDirectory → EventDirectory} :
    (state.mapLogs f).mapLogs g = state.mapLogs (g ∘ f) := by
  unfold MetadataState.mapLogs
  cases state.events <;> rfl

theorem mapLogs_id : state.mapLogs id = state := by
  unfold MetadataState.mapLogs
  rw [show (fun directory : LogDirectory => { directory with logs := id directory.logs }) = id from rfl, Option.map_id]
  rfl

theorem editLog_editLog : (state.editLog name f).editLog name g = state.editLog name (g ∘ f) := by
  unfold MetadataState.editLog
  rw [mapLogs_mapLogs]
  exact congrArg state.mapLogs (funext fun _ => editFile_editFile)

/-- Edits that agree on what the log holds are the same edit. -/
theorem editLog_congr (same : f (state.content name) = g (state.content name)) :
    state.editLog name f = state.editLog name g := by
  refine mapLogs_congr fun directory found => editFile_congr ?_
  simp only [MetadataState.content, found] at same
  exact same

theorem editLog_same (same : f (state.content name) = state.content name) : state.editLog name f = state := by
  have plain : state.editLog name f = state.mapLogs id := mapLogs_congr fun directory found => by
    simp only [MetadataState.content, found] at same
    exact editFile_same same
  rw [plain, mapLogs_id]

/-- Logs may be scrubbed in two rounds. -/
theorem scrub_scrub : (state.scrub project_name names).scrub project_name more
    = state.scrub project_name (names ++ more) := by
  unfold MetadataState.scrub
  rw [mapLogs_mapLogs]
  exact congrArg state.mapLogs (funext fun _ => scrubbed_append)

theorem scrub_none : state.scrub project_name [] = state := mapLogs_id

theorem scrub_one : state.scrub project_name [name] = state.editLog name (kept project_name) := rfl

/-- Logs without events of the project need no scrubbing. -/
theorem scrub_congr (subset : ∀ name ∈ names, name ∈ more)
    (clean : ∀ name ∈ more, name ∈ names ∨ holds project_name (state.content name) = false) :
    state.scrub project_name names = state.scrub project_name more := by
  refine mapLogs_congr fun directory found => scrubbed_congr subset fun name listed => ?_
  have either := clean name listed
  simp only [MetadataState.content, found] at either
  exact either

theorem content_scrub_either : (state.scrub project_name names).content name = state.content name
    ∨ (state.scrub project_name names).content name = kept project_name (state.content name) := by
  unfold MetadataState.content MetadataState.scrub MetadataState.mapLogs
  cases state.events with
  | none => exact .inl rfl
  | some directory => exact content_either

/-- A scrubbed log keeps the lines of other projects. -/
theorem content_scrub (listed : name ∈ names) :
    (state.scrub project_name names).content name = kept project_name (state.content name) := by
  unfold MetadataState.content MetadataState.scrub MetadataState.mapLogs
  cases state.events with
  | none => rfl
  | some directory => exact content_listed listed

theorem eventLogNames_congr {logs other : EventDirectory} (same : logs.entries = other.entries) :
    Events.eventLogNames logs = Events.eventLogNames other := by
  unfold Events.eventLogNames EventDirectory.names
  rw [same]

@[simp] theorem logNames_scrub : (state.scrub project_name names).logNames = state.logNames := by
  unfold MetadataState.logNames MetadataState.scrub MetadataState.mapLogs
  cases state.events with
  | none => rfl
  | some directory => exact eventLogNames_congr scrubbed_entries

theorem readLog_ok : readLog name state = .ok events ↔
    (state.content name).length ≤ kMaximumEventLogBytes ∧ parseEvents (state.content name) = .ok events := by
  unfold readLog MetadataState.content
  cases state.events with
  | none => exact ⟨fun read => ⟨Nat.zero_le _, read⟩, fun read => read.2⟩
  | some directory =>
    simp only [readEvents, bind_ok, rejectIf_ok, Nat.not_lt]
    exact ⟨fun ⟨_, fits, read⟩ => ⟨fits, read⟩, fun ⟨fits, read⟩ => ⟨(), fits, read⟩⟩

/-- Every log is one that can be read. -/
structure LogsValid (state : MetadataState) : Prop where
  closed : ∀ directory, state.events = some directory →
    directory.is_private = true ∧ directory.unsafe_names.any isEventLog = false
  readable : ∀ name ∈ state.logNames, ∃ events, readLog name state = .ok events

/-- The logs are valid, and those that are replaced hold an event of the project. -/
theorem findReplacements_ok {replacements : List Bytes} (found : findReplacements project_name state = .ok replacements) :
    LogsValid state ∧ ∀ name, name ∈ replacements ↔
      name ∈ state.logNames ∧ holds project_name (state.content name) = true := by
  unfold findReplacements at found
  cases present : state.events with
  | none =>
    rw [present] at found
    cases found
    refine ⟨⟨fun directory there => ?_, fun name listed => ?_⟩, fun name => ?_⟩
    · rw [present] at there
      cases there
    · simp [MetadataState.logNames, present] at listed
    · simp [MetadataState.logNames, present]
  | some directory =>
    simp only [present, bind_ok, rejectIf_ok, not_not] at found
    obtain ⟨_, closed, names, listed, pairs, read, rest⟩ := found
    rw [pure_ok] at rest
    subst rest
    unfold eventLogNames at listed
    split at listed
    · cases listed
    rename_i safe
    cases listed
    have logs : state.logNames = Events.eventLogNames directory.logs := by
      simp only [MetadataState.logNames, present]
    have each : ∀ name result, (do
        let events ← readEvents directory.logs name
        return (name, events.any (·.project_name = project_name)) : Except String (Bytes × Bool)) = .ok result →
        (∃ events, readLog name state = .ok events) ∧ result = (name, holds project_name (state.content name)) := by
      intro name result done
      obtain ⟨events, read, same⟩ := bind_ok.mp done
      rw [pure_ok] at same
      have log : readLog name state = .ok events := by
        simp only [readLog, present]
        exact read
      rw [holds_ok (readLog_ok.mp log).2]
      exact ⟨⟨events, log⟩, same.symm⟩
    refine ⟨⟨fun other there => ?_, fun name member => ?_⟩, fun name => ?_⟩
    · rw [present] at there
      cases there
      exact ⟨closed, Bool.not_eq_true _ ▸ safe⟩
    · rw [logs] at member
      obtain ⟨result, _, done⟩ := mapM_mem read member
      exact (each name result done).1
    · rw [logs, List.mem_map]
      constructor
      · rintro ⟨pair, chosen, rfl⟩
        obtain ⟨listed, held⟩ := List.mem_filter.mp chosen
        obtain ⟨name, member, done⟩ := mapM_origin read listed
        obtain rfl := (each name pair done).2
        exact ⟨member, held⟩
      · rintro ⟨member, held⟩
        obtain ⟨result, listed, done⟩ := mapM_mem read member
        obtain rfl := (each name result done).2
        exact ⟨_, List.mem_filter.mpr ⟨listed, held⟩, rfl⟩

theorem findReplacements_valid (valid : LogsValid state) :
    ∃ replacements, findReplacements project_name state = .ok replacements := by
  unfold findReplacements
  cases present : state.events with
  | none => exact ⟨[], rfl⟩
  | some directory =>
    obtain ⟨closed, safe⟩ := valid.closed directory present
    have logs : state.logNames = Events.eventLogNames directory.logs := by
      simp only [MetadataState.logNames, present]
    have read : ∃ pairs, (Events.eventLogNames directory.logs).mapM (fun name => do
        let events ← readEvents directory.logs name
        return (name, events.any (·.project_name = project_name)) : Bytes → Except String (Bytes × Bool)) = .ok pairs := by
      refine mapM_succeeds fun name listed => ?_
      obtain ⟨events, log⟩ := valid.readable name (logs ▸ listed)
      simp only [readLog, present] at log
      exact ⟨_, bind_ok.mpr ⟨events, log, rfl⟩⟩
    obtain ⟨pairs, read⟩ := read
    refine ⟨_, bind_ok.mpr ⟨(), rejectIf_ok.mpr (not_not.mpr closed), bind_ok.mpr ⟨_, if_neg ?_, bind_ok.mpr ⟨pairs, read, rfl⟩⟩⟩⟩
    rw [safe]
    exact Bool.false_ne_true

end

end CkGit.Metadata
