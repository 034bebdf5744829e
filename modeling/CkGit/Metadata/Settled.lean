import CkGit.Events.Lines
import CkGit.Metadata.Model

/-!
The text of a log whose events of a project are taken out: what is left, and
when the old text behind it may stay behind.
-/
namespace CkGit.Metadata
open CkGit.Base CkGit.Ci CkGit.Events

section
variable {project_name : Bytes} {events more : List StateEvent} {content : Bytes}

/-- The events of the other projects. -/
def others (project_name : Bytes) (events : List StateEvent) : List StateEvent :=
  events.filter fun event => event.project_name ≠ project_name

theorem retained_records : retained project_name events = records (others project_name events) := rfl

theorem mem_others {event : StateEvent} :
    event ∈ others project_name events ↔ event ∈ events ∧ event.project_name ≠ project_name := by
  rw [others, List.mem_filter, decide_eq_true_eq]

theorem others_append : others project_name (events ++ more) = others project_name events ++ others project_name more :=
  List.filter_append ..

theorem others_others : others project_name (others project_name events) = others project_name events := by
  rw [others, others, List.filter_filter]
  simp

theorem others_own (own : ∀ event ∈ events, event.project_name = project_name) : others project_name events = [] :=
  List.filter_eq_nil_iff.mpr fun event member => by simp [own event member]

theorem others_all (other : ∀ event ∈ events, event.project_name ≠ project_name) :
    others project_name events = events :=
  List.filter_eq_self.mpr fun event member => by simp [other event member]

/-- The log begins with its lines of other projects, as they are written; what follows
them is the project's. -/
def Settled (project_name content : Bytes) : Prop :=
  ∃ front back own, content = records front ++ back
    ∧ (∀ event ∈ front, Readable event ∧ event.project_name ≠ project_name)
    ∧ parseEvents back = .ok own ∧ ∀ event ∈ own, event.project_name = project_name

theorem records_lines {front : List StateEvent} (readable : ∀ event ∈ front, Readable event) :
    (front.map eventLine).mapM parseEvent = .ok front ∧ ∀ line ∈ front.map eventLine, newline ∉ line := by
  refine ⟨?_, fun line member => ?_⟩
  · apply mapM_of_forall₂
    rw [List.forall₂_map_left_iff, List.forall₂_same]
    exact fun event member => parseEvent_eventLine (readable event member)
  · obtain ⟨event, which, rfl⟩ := List.mem_map.mp member
    exact eventLine_newline (readable event which).1

theorem parseEvents_behind {front own : List StateEvent} {back : Bytes}
    (readable : ∀ event ∈ front, Readable event) :
    parseEvents (records front ++ back) = .ok own ↔ ∃ later, parseEvents back = .ok later ∧ front ++ later = own := by
  obtain ⟨written, clean_front⟩ := records_lines readable
  obtain ⟨lines, tail, rfl, torn, clean⟩ := log_lines back
  have clean_all : ∀ line ∈ front.map eventLine ++ lines, newline ∉ line := fun line member =>
    (List.mem_append.mp member).elim (clean_front line) (clean line)
  rw [records_framed, ← List.append_assoc, ← framed_append, parseEvents_framed clean_all torn,
    parseEvents_framed clean torn, List.mapM_append, written]
  simp only [bind_ok, pure_ok, Except.ok.injEq, exists_eq_left']

/-- Any end of a log is lines, the first of them the end of one. -/
theorem drop_lines {lines : List Bytes} {last : Bytes} (clean : ∀ line ∈ lines, newline ∉ line) (count : Nat) :
    ∃ pieces rest, (framed lines ++ last).drop count = framed pieces ++ rest
      ∧ (∀ piece ∈ pieces, newline ∉ piece) ∧ rest <:+ last := by
  induction lines generalizing count with
  | nil => exact ⟨[], last.drop count, rfl, nofun, List.drop_suffix _ _⟩
  | cons line lines ih =>
    have first := clean line List.mem_cons_self
    have others := fun other member => clean other (List.mem_cons_of_mem _ member)
    have shape : framed (line :: lines) ++ last = line ++ newline :: (framed lines ++ last) := by simp
    rw [shape]
    by_cases early : count ≤ line.length
    · refine ⟨line.drop count :: lines, last, ?_, List.forall_mem_cons.mpr ⟨?_, others⟩, List.suffix_rfl⟩
      · rw [List.drop_append_of_le_length early]
        simp
      · exact fun member => first (List.mem_of_mem_drop member)
    · obtain ⟨pieces, rest, dropped, good, suffix⟩ := ih others (count - line.length - 1)
      refine ⟨pieces, rest, ?_, good, suffix⟩
      rw [← dropped, List.drop_append, List.drop_eq_nil_of_le (by omega), List.nil_append,
        show count - line.length = count - line.length - 1 + 1 by omega, List.drop_succ_cons]
      rfl

/-- The last line of another project, if there is one. -/
theorem last_other {lines : List Bytes} (h : Reads lines events) :
    (∀ event ∈ events, event.project_name = project_name) ∨
      ∃ front line back before event own, lines = front ++ line :: back ∧ events = before ++ event :: own
        ∧ Reads front before ∧ parseEvent line = .ok event ∧ Reads back own
        ∧ event.project_name ≠ project_name ∧ ∀ event ∈ own, event.project_name = project_name := by
  induction h with
  | nil => exact .inl nofun
  | @cons line event lines events first rest ih =>
    rcases ih with all | ⟨front, other, back, before, later, own, rfl, rfl, left, middle, right, different, good⟩
    · by_cases same : event.project_name = project_name
      · exact .inl (List.forall_mem_cons.mpr ⟨same, all⟩)
      · exact .inr ⟨[], line, lines, [], event, events, rfl, rfl, .nil, first, rest, same, all⟩
    · exact .inr ⟨line :: front, other, back, event :: before, later, own, rfl, rfl, .cons first left, middle,
        right, different, good⟩

theorem serializeEvent_shortest {line : Bytes} {event : StateEvent} (h : parseEvent line = .ok event) :
    (serializeEvent event).length ≤ line.length + 1
      ∧ ((serializeEvent event).length = line.length + 1 → serializeEvent event = line ++ [newline]) := by
  obtain ⟨shorter, same⟩ := eventLine_shortest h
  rw [serializeEvent_length]
  refine ⟨by omega, fun equal => ?_⟩
  rw [serializeEvent, same (by omega)]

/-- What is kept of some lines is as long only when it is all of them, as they stand. -/
theorem kept_shortest {lines : List Bytes} (h : Reads lines events) :
    (retained project_name events).length ≤ (framed lines).length
      ∧ ((retained project_name events).length = (framed lines).length →
        retained project_name events = framed lines) := by
  induction h with
  | nil => exact ⟨Nat.le_refl _, fun _ => rfl⟩
  | @cons line event lines events first _ ih =>
    obtain ⟨shorter, same⟩ := serializeEvent_shortest first
    have size : (framed (line :: lines)).length = line.length + 1 + (framed lines).length := by simp; omega
    by_cases own : event.project_name = project_name
    · have shape : retained project_name (event :: events) = retained project_name events := by
        simp [retained, own]
      rw [shape, size]
      exact ⟨by omega, fun equal => by omega⟩
    · have shape : retained project_name (event :: events) = serializeEvent event ++ retained project_name events := by
        simp [retained, own]
      rw [shape, size, List.length_append]
      refine ⟨by omega, fun equal => ?_⟩
      rw [same (by omega), ih.2 (by omega)]
      simp

/-- Where only the project's events are left behind what is kept, the log was settled. -/
theorem settled_of_tail {own : List StateEvent} (read : parseEvents content = .ok events)
    (left : parseEvents (content.drop (retained project_name events).length) = .ok own)
    (mine : ∀ event ∈ own, event.project_name = project_name) : Settled project_name content := by
  obtain ⟨lines, tail, rfl, torn, clean, reads⟩ := parseEvents_ok read
  rcases @last_other project_name _ _ reads with
    all | ⟨front, line, back, before, event, later, rfl, rfl, ahead, middle, behind, different, good⟩
  · exact ⟨[], _, events, rfl, nofun, read, all⟩
  · have clean_front : ∀ line ∈ front, newline ∉ line := fun other member =>
      clean other (List.mem_append_left _ member)
    have clean_back : ∀ other ∈ back, newline ∉ other := fun other member =>
      clean other (List.mem_append_right _ (List.mem_cons_of_mem _ member))
    have kept : retained project_name (before ++ event :: later)
        = retained project_name before ++ serializeEvent event := by
      rw [retained_records, retained_records, others_append, show event :: later = [event] ++ later from rfl,
        others_append, others_own good, others_all (List.forall_mem_singleton.mpr different)]
      simp [records]
    have shape : framed (front ++ line :: back) ++ tail
        = (framed front ++ line) ++ newline :: (framed back ++ tail) := by simp
    obtain ⟨shorter, same⟩ := @kept_shortest project_name _ _ ahead
    obtain ⟨short_line, same_line⟩ := serializeEvent_shortest middle
    rw [kept, List.length_append] at left
    by_cases cut : (retained project_name before).length + (serializeEvent event).length
        ≤ (framed front ++ line).length
    · -- The end of this line is left, and it names its project.
      obtain ⟨pieces, rest, dropped, clean_pieces, suffix⟩ := @drop_lines front line clean_front
        ((retained project_name before).length + (serializeEvent event).length)
      have clean_rest : newline ∉ rest := fun member =>
        clean line (List.mem_append_right _ List.mem_cons_self) (suffix.mem member)
      have whole : (framed (front ++ line :: back) ++ tail).drop
          ((retained project_name before).length + (serializeEvent event).length)
          = framed (pieces ++ rest :: back) ++ tail := by
        rw [shape, List.drop_append_of_le_length cut, dropped]
        simp
      have clean_whole : ∀ piece ∈ pieces ++ rest :: back, newline ∉ piece := by
        intro piece member
        rcases List.mem_append.mp member with first | second
        · exact clean_pieces piece first
        · rcases List.mem_cons.mp second with rfl | later
          · exact clean_rest
          · exact clean_back piece later
      rw [whole, parseEvents_framed clean_whole torn] at left
      obtain ⟨other, member, parsed⟩ := mapM_mem left
        (List.mem_append_right pieces (List.mem_cons_self : rest ∈ rest :: back))
      exact absurd ((parseEvent_suffix middle suffix parsed).symm.trans (mine other member)) different
    · rw [List.length_append] at cut
      have all := same (by omega)
      have written := same_line (by omega)
      have complete : retained project_name (before ++ event :: later) ++ (framed back ++ tail)
          = framed (front ++ line :: back) ++ tail := by
        rw [kept, all, written, shape]
        simp
      refine ⟨others project_name (before ++ event :: later), framed back ++ tail, later, complete.symm, ?_, ?_, good⟩
      · exact fun other member => ⟨reads.readable other (mem_others.mp member).1, (mem_others.mp member).2⟩
      · rw [parseEvents_framed clean_back torn]
        exact mapM_of_forall₂ behind

end

end CkGit.Metadata
