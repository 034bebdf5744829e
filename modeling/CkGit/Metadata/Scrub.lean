import CkGit.Metadata.Removal
import CkGit.Metadata.Settled

/-!
The rewrite of the logs: what a file holds after it, and after every byte of it.
-/
namespace CkGit.Metadata
open CkGit.Base CkGit.Ci CkGit.Events

section
variable {project_name content : Bytes} {events : List StateEvent}

/-- The log holds an event of the project. -/
def holds (project_name content : Bytes) : Bool :=
  match parseEvents content with
  | .ok events => events.any (·.project_name = project_name)
  | .error _ => false

/-- What the rewrite makes of a log. -/
def kept (project_name content : Bytes) : Bytes :=
  match parseEvents content with
  | .ok events => if events.any (·.project_name = project_name) then retained project_name events else content
  | .error _ => content

theorem holds_ok (read : parseEvents content = .ok events) :
    holds project_name content = events.any (·.project_name = project_name) := by
  rw [holds, read]

theorem kept_ok (read : parseEvents content = .ok events) :
    kept project_name content = if holds project_name content then retained project_name events else content := by
  rw [holds_ok read, kept, read]

theorem kept_of_none (none_held : holds project_name content = false) : kept project_name content = content := by
  unfold kept
  split
  · rename_i events read
    rw [holds_ok read] at none_held
    rw [none_held]
    rfl
  · rfl

theorem readable_of (read : parseEvents content = .ok events) : ∀ event ∈ events, Readable event := by
  obtain ⟨lines, tail, _, _, _, reads⟩ := parseEvents_ok read
  exact reads.readable

theorem parse_retained (read : parseEvents content = .ok events) :
    parseEvents (retained project_name events) = .ok (others project_name events) := by
  have readable : ∀ event ∈ others project_name events, Readable event := fun event member =>
    readable_of read event (mem_others.mp member).1
  have nothing : parseEvents [] = .ok [] := rfl
  have whole := (parseEvents_behind readable).mpr ⟨[], nothing, List.append_nil _⟩
  rwa [List.append_nil] at whole

theorem parse_kept (read : parseEvents content = .ok events) :
    parseEvents (kept project_name content) = .ok (others project_name events) := by
  rw [kept_ok read]
  split
  · exact parse_retained read
  · rename_i none_held
    rw [holds_ok read, Bool.not_eq_true, List.any_eq_false] at none_held
    rw [read, others_all fun event member => by simpa using none_held event member]

theorem holds_kept (project_name content : Bytes) : holds project_name (kept project_name content) = false := by
  cases read : parseEvents content with
  | error error =>
    have same : kept project_name content = content := by rw [kept, read]
    rw [same, holds, read]
  | ok events =>
    rw [holds_ok (parse_kept read), List.any_eq_false]
    exact fun event member => by simpa using (mem_others.mp member).2

theorem kept_kept (project_name content : Bytes) :
    kept project_name (kept project_name content) = kept project_name content :=
  kept_of_none (holds_kept project_name content)

theorem retained_length (read : parseEvents content = .ok events) :
    (retained project_name events).length ≤ content.length := by
  obtain ⟨lines, tail, rfl, _, _, reads⟩ := parseEvents_ok read
  have shorter := (@kept_shortest project_name _ _ reads).1
  rw [List.length_append]
  omega

theorem kept_length (project_name content : Bytes) : (kept project_name content).length ≤ content.length := by
  unfold kept
  split
  · rename_i events read
    split
    · exact retained_length read
    · exact Nat.le_refl _
  · exact Nat.le_refl _

/-- A settled log begins with what is kept. -/
theorem Settled.front (settled : Settled project_name content) (read : parseEvents content = .ok events) :
    retained project_name events <+: content := by
  obtain ⟨front, back, own, rfl, ahead, behind, mine⟩ := settled
  obtain ⟨later, parsed, rfl⟩ := (parseEvents_behind fun event member => (ahead event member).1).mp read
  rw [behind] at parsed
  cases parsed
  rw [retained_records, others_append, others_own mine, List.append_nil,
    others_all fun event member => (ahead event member).2]
  exact List.prefix_append _ _

end

section
variable {name other : Bytes} {names more : List Bytes} {f g : Bytes → Bytes} {logs : EventDirectory}

theorem same_files {logs other : EventDirectory} (entries : logs.entries = other.entries)
    (files : ∀ i : Nat, logs.files[i]? = other.files[i]?) : logs = other := by
  cases logs
  cases other
  cases entries
  cases List.ext_getElem? files
  rfl

@[simp] theorem editFile_entries : (editFile name f logs).entries = logs.entries := by
  unfold editFile
  split <;> rfl

@[simp] theorem editFile_find : (editFile name f logs).find other = logs.find other := by
  unfold EventDirectory.find
  rw [editFile_entries]

theorem editFile_files (i : Nat) : (editFile name f logs).files[i]?
    = if logs.find name = some i then logs.files[i]?.map f else logs.files[i]? := by
  unfold editFile
  split
  · rename_i file found
    simp only [found, Option.some.injEq]
    rw [List.getElem?_modify]
    split
    · rfl
    · simp
  · rename_i absent
    rw [absent, if_neg nofun]

theorem editFile_editFile : editFile name g (editFile name f logs) = editFile name (g ∘ f) logs := by
  refine same_files (by simp) fun i => ?_
  simp only [editFile_files, editFile_find]
  split
  · rw [Option.map_map]
  · rfl

theorem content_some {i : Nat} {content : Bytes} (found : logs.find name = some i)
    (there : logs.files[i]? = some content) : logs.content name = content := by
  unfold EventDirectory.content
  rw [found, Option.bind_some, there]
  rfl

theorem editFile_congr (same : f (logs.content name) = g (logs.content name)) :
    editFile name f logs = editFile name g logs := by
  refine same_files (by simp) fun i => ?_
  simp only [editFile_files]
  split
  · rename_i found
    cases there : logs.files[i]? with
    | none => rfl
    | some content =>
      rw [content_some found there] at same
      simp [same]
  · rfl

theorem editFile_same (same : f (logs.content name) = logs.content name) : editFile name f logs = logs := by
  have plain : editFile name f logs = editFile name id logs := editFile_congr same
  rw [plain]
  exact same_files (by simp) fun i => by simp [editFile_files]

/-- The rewrite of some logs. -/
def scrubbed (project_name : Bytes) (names : List Bytes) (logs : EventDirectory) : EventDirectory :=
  names.foldl (fun logs name => editFile name (kept project_name) logs) logs

variable {project_name : Bytes}

@[simp] theorem scrubbed_entries : (scrubbed project_name names logs).entries = logs.entries := by
  unfold scrubbed
  induction names generalizing logs with
  | nil => rfl
  | cons name rest ih => rw [List.foldl_cons, ih, editFile_entries]

@[simp] theorem scrubbed_find : (scrubbed project_name names logs).find other = logs.find other := by
  unfold EventDirectory.find
  rw [scrubbed_entries]

theorem scrubbed_files (i : Nat) : (scrubbed project_name names logs).files[i]?
    = if ∃ name ∈ names, logs.find name = some i then logs.files[i]?.map (kept project_name) else logs.files[i]? := by
  unfold scrubbed
  induction names generalizing logs with
  | nil => simp
  | cons name rest ih =>
    rw [List.foldl_cons, ih]
    simp only [editFile_find, editFile_files, List.exists_mem_cons_iff]
    by_cases first : logs.find name = some i
    · simp only [first, true_or, if_true, Option.map_map]
      have twice : kept project_name ∘ kept project_name = kept project_name := funext (kept_kept project_name)
      rw [twice, ite_self]
    · simp only [first, false_or, if_false]

theorem scrubbed_append : scrubbed project_name more (scrubbed project_name names logs)
    = scrubbed project_name (names ++ more) logs := List.foldl_append.symm

/-- Rewriting the same files, or also logs that hold no event of the project, gives the same. -/
theorem scrubbed_congr (subset : ∀ name ∈ names, name ∈ more)
    (clean : ∀ name ∈ more, name ∈ names ∨ holds project_name (logs.content name) = false) :
    scrubbed project_name names logs = scrubbed project_name more logs := by
  refine same_files (by simp) fun i => ?_
  rw [scrubbed_files, scrubbed_files]
  by_cases first : ∃ name ∈ names, logs.find name = some i
  · obtain ⟨name, listed, found⟩ := first
    rw [if_pos ⟨name, listed, found⟩, if_pos ⟨name, subset name listed, found⟩]
  · rw [if_neg first]
    split
    · rename_i second
      obtain ⟨name, listed, found⟩ := second
      cases there : logs.files[i]? with
      | none => rfl
      | some content =>
        rcases clean name listed with known | none_held
        · exact absurd ⟨name, known, found⟩ first
        · rw [content_some found there] at none_held
          rw [Option.map_some, kept_of_none none_held]
    · rfl

theorem content_scrubbed : (scrubbed project_name names logs).content name
    = if ∃ other ∈ names, logs.find other = logs.find name then kept project_name (logs.content name)
      else logs.content name := by
  unfold EventDirectory.content
  rw [scrubbed_find]
  cases found : logs.find name with
  | none =>
    exact (ite_self (c := ∃ other ∈ names, logs.find other = none) []).symm
  | some i =>
    rw [Option.bind_some, Option.bind_some, scrubbed_files]
    split
    · cases logs.files[i]? with
      | none => rfl
      | some content => rfl
    · rfl

theorem content_listed (listed : name ∈ names) :
    (scrubbed project_name names logs).content name = kept project_name (logs.content name) := by
  rw [content_scrubbed, if_pos ⟨name, listed, rfl⟩]

theorem content_either : (scrubbed project_name names logs).content name = logs.content name
    ∨ (scrubbed project_name names logs).content name = kept project_name (logs.content name) := by
  rw [content_scrubbed]
  split
  · exact .inr rfl
  · exact .inl rfl

end

end CkGit.Metadata
