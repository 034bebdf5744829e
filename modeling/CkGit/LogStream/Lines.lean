import CkGit.LogStream.Model

/-!
The events of a log: cutting it into lines can stop anywhere and go on, and the
id of an event is the place to go on from.
-/
namespace CkGit.LogStream
open CkGit.Base

variable {emitted position : Nat} {line left text more log : Bytes} 

theorem drainLines_nil : drainLines emitted line [] = ([], emitted, line) := rfl

theorem drainLines_newline (rest : Bytes) : drainLines emitted line (newline :: rest)
    = ({ id := emitted + line.length + 1, data := clean line }
        :: (drainLines (emitted + line.length + 1) [] rest).1,
      (drainLines (emitted + line.length + 1) [] rest).2) := by
  rw [drainLines, if_pos rfl]

theorem drainLines_other {c : UInt8} (other : c ≠ newline) (rest : Bytes) :
    drainLines emitted line (c :: rest) = drainLines emitted (line ++ [c]) rest := by
  rw [drainLines, if_neg other]

/-- Going on where the lines of a first part ended. -/
theorem drainLines_append (first second : Bytes) : drainLines emitted line (first ++ second)
    = ((drainLines emitted line first).1
        ++ (drainLines (drainLines emitted line first).2.1 (drainLines emitted line first).2.2 second).1,
      (drainLines (drainLines emitted line first).2.1 (drainLines emitted line first).2.2 second).2) := by
  induction first generalizing emitted line with
  | nil => rfl
  | cons c rest ih =>
    by_cases ends : c = newline
    · subst ends
      rw [List.cons_append, drainLines_newline, ih, drainLines_newline]
      rfl
    · rw [List.cons_append, drainLines_other ends, drainLines_other ends, ih]

/-- The rest of a line that is read again makes no new line. -/
theorem drainLines_plain (plain : newline ∉ text) : drainLines emitted line text = ([], emitted, line ++ text) := by
  induction text generalizing line with
  | nil => simp [drainLines_nil]
  | cons c rest ih =>
    have here : c ≠ newline := fun same => plain (same ▸ List.mem_cons_self)
    rw [drainLines_other here, ih fun inside => plain (List.mem_cons_of_mem _ inside)]
    simp

/-- What is left has no newline. -/
theorem drainLines_left (plain : newline ∉ line) (text : Bytes) : newline ∉ (drainLines emitted line text).2.2 := by
  induction text generalizing emitted line with
  | nil => exact plain
  | cons c rest ih =>
    by_cases ends : c = newline
    · subst ends
      rw [drainLines_newline]
      exact ih (List.not_mem_nil)
    · rw [drainLines_other ends]
      refine ih fun inside => ?_
      rcases List.mem_append.mp inside with old | new
      · exact plain old
      · exact ends (List.mem_singleton.mp new).symm

theorem drainLines_resume (plain : newline ∉ line) : drainLines emitted [] (line ++ text) = drainLines emitted line text := by
  rw [drainLines_append, drainLines_plain plain]
  simp

/-- Every byte is behind a line that was cut or in the rest. -/
theorem drainLines_position (emitted : Nat) (line text : Bytes) :
    (drainLines emitted line text).2.1 + (drainLines emitted line text).2.2.length
      = emitted + line.length + text.length := by
  induction text generalizing emitted line with
  | nil => rfl
  | cons c rest ih =>
    by_cases ends : c = newline
    · subst ends
      have rest_position := ih (emitted + line.length + 1) []
      simp only [List.length_nil] at rest_position
      rw [drainLines_newline, List.length_cons]
      change (drainLines (emitted + line.length + 1) [] rest).2.1
        + (drainLines (emitted + line.length + 1) [] rest).2.2.length = _
      omega
    · rw [drainLines_other ends, ih]
      simp only [List.length_append, List.length_cons, List.length_nil]
      omega

/-- The complete lines of a log. -/
def lineEvents (log : Bytes) : List Event := (drainLines 0 [] log).1

/-- The rest of a log behind its last newline, as an event when there is one. -/
def lastEvent (log : Bytes) : List Event :=
  if (drainLines 0 [] log).2.2 = [] then [] else [{ id := log.length, data := clean (drainLines 0 [] log).2.2 }]

def allEvents (log : Bytes) : List Event := lineEvents log ++ lastEvent log

/-- The position a client comes back with. -/
def lastId (received : List Event) : Nat := (received.getLast?.map (·.id)).getD 0

theorem lineEvents_append (first second : Bytes) : lineEvents first <+: lineEvents (first ++ second) := by
  rw [lineEvents, lineEvents, drainLines_append]
  exact List.prefix_append _ _

/-- Where the lines end is the id of the last event. -/
theorem drainLines_last (emitted : Nat) (line text : Bytes) :
    (drainLines emitted line text).2.1 = (((drainLines emitted line text).1.getLast?).map (·.id)).getD emitted := by
  induction text generalizing emitted line with
  | nil => rfl
  | cons c rest ih =>
    by_cases ends : c = newline
    · subst ends
      rw [drainLines_newline, ih]
      cases shape : (drainLines (emitted + line.length + 1) [] rest).1 with
      | nil => rfl
      | cons first others => simp [List.getLast?_cons]
    · rw [drainLines_other ends, ih]

/-- The lines up to an event are the text up to its id. -/
theorem drainLines_prefix {first : List Event} (text : Bytes) (part : first <+: (drainLines emitted line text).1)
    (some_first : first ≠ []) :
    ∃ count ≤ text.length, (drainLines emitted line (text.take count)) = (first, ((first.getLast?.map (·.id)).getD 0), []) ∧
      (first.getLast?.map (·.id)).getD 0 = emitted + line.length + count := by
  induction text generalizing emitted line first with
  | nil =>
    rw [drainLines_nil] at part
    exact absurd (List.prefix_nil.mp part) some_first
  | cons c rest ih =>
    by_cases ends : c = newline
    · subst ends
      rw [drainLines_newline] at part
      cases first with
      | nil => exact absurd rfl some_first
      | cons event others =>
        obtain ⟨rfl, later⟩ := List.cons_prefix_cons.mp part
        by_cases only : others = []
        · subst only
          exact ⟨1, by simp, by rw [List.take_succ_cons, List.take_zero, drainLines_newline]; rfl, rfl⟩
        · obtain ⟨count, bound, cut, place⟩ := ih later only
          have same : ((⟨emitted + line.length + 1, clean line⟩ :: others).getLast?.map (·.id)).getD 0
              = (others.getLast?.map (·.id)).getD 0 := by
            rw [List.getLast?_cons_of_ne_nil only]
          refine ⟨count + 1, by simpa using bound, ?_, ?_⟩
          · rw [List.take_succ_cons, drainLines_newline, cut, same]
          · rw [same, place]
            simp only [List.length_nil]
            omega
    · rw [drainLines_other ends] at part
      obtain ⟨count, bound, cut, place⟩ := ih part some_first
      refine ⟨count + 1, by simpa using bound, ?_, ?_⟩
      · rw [List.take_succ_cons, drainLines_other ends, cut]
      · rw [place]
        simp only [List.length_append, List.length_singleton]
        omega

/-- A client with the first events of a log comes back to the place behind them. -/
theorem lineEvents_resume {first : List Event} (part : first <+: lineEvents log) :
    lastId first ≤ log.length ∧ drainLines 0 [] (log.take (lastId first)) = (first, lastId first, []) := by
  by_cases some_first : first = []
  · subst some_first
    exact ⟨Nat.zero_le _, rfl⟩
  · obtain ⟨count, bound, cut, place⟩ := drainLines_prefix log part some_first
    have same : lastId first = count := by simpa [lastId] using place
    rw [same]
    refine ⟨bound, ?_⟩
    rw [cut]
    exact congrArg (fun place => (first, place, [])) same

theorem lastId_allEvents (log : Bytes) : lastId (allEvents log) = log.length := by
  have position := drainLines_position 0 [] log
  have ends := drainLines_last 0 [] log
  by_cases rest : (drainLines 0 [] log).2.2 = []
  · rw [allEvents, lastEvent, if_pos rest, List.append_nil]
    rw [rest] at position
    simp only [List.length_nil, Nat.add_zero, Nat.zero_add] at position
    rw [← position, ends]
    rfl
  · simp [allEvents, lastEvent, rest, lastId]

/-- A line begun is put before the first of the lines that follow. -/
def continueLine (line : Bytes) (lines : List Bytes) : List Bytes :=
  match lines with
  | [] => if line = [] then [] else [line]
  | first :: more => (line ++ first) :: more

theorem clean_of_plain (plain : newline ∉ line) : clean line = withoutReturns line := by
  refine List.filter_congr fun c inside => ?_
  have other : c ≠ newline := fun same => plain (same ▸ inside)
  simp [other]

theorem drainLines_lines (emitted : Nat) {line : Bytes} (plain : newline ∉ line) (text : Bytes) :
    ((drainLines emitted line text).1.map (·.data))
        ++ (if (drainLines emitted line text).2.2 = [] then [] else [clean (drainLines emitted line text).2.2])
      = (continueLine line (logLines text)).map withoutReturns := by
  induction text generalizing emitted line with
  | nil =>
    rw [drainLines_nil, logLines, continueLine]
    by_cases empty : line = []
    · simp [empty]
    · simp [empty, clean_of_plain plain]
  | cons c rest ih =>
    by_cases ends : c = newline
    · subst ends
      have later := ih (emitted + line.length + 1) List.not_mem_nil
      rw [drainLines_newline, logLines, if_pos rfl, continueLine, List.append_nil]
      simp only [List.map_cons, List.cons_append]
      rw [later, clean_of_plain plain]
      cases logLines rest <;> rfl
    · have more : newline ∉ line ++ [c] := by
        intro inside
        rcases List.mem_append.mp inside with old | new
        · exact plain old
        · exact ends (List.mem_singleton.mp new).symm
      rw [drainLines_other ends, ih _ more, logLines, if_neg ends]
      cases logLines rest <;> simp [continueLine]

theorem allEvents_lines (log : Bytes) : (allEvents log).map (·.data) = (logLines log).map withoutReturns := by
  have lines := @drainLines_lines 0 [] List.not_mem_nil log
  have same : continueLine [] (logLines log) = logLines log := by cases logLines log <;> rfl
  rw [same] at lines
  rw [← lines, allEvents, List.map_append, lastEvent]
  congr 1
  split <;> rfl

end CkGit.LogStream
