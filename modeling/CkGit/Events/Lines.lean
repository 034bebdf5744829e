import CkGit.Events.Reading

/-!
What an event log of any origin holds: its lines, the events they give, and how
much shorter serializeEvent may write them.
-/
namespace CkGit.Events
open CkGit.Base CkGit.Ci

/-- Digits of one length are told apart by their value. -/
theorem digits_of_value {a b : Bytes} (same : a.length = b.length) (left : ∀ byte ∈ a, isDigit byte)
    (right : ∀ byte ∈ b, isDigit byte) (value : digitsValue a = digitsValue b) : a = b := by
  rcases textBefore_cases same left right with equal | ⟨less, -⟩ | ⟨less, -⟩
  · exact equal
  · exact absurd value less.ne
  · exact absurd value less.ne'

/-- No text of a number is shorter than what std::to_string writes. -/
theorem decimal_shortest {limit n : Nat} {text : Bytes} (h : parseDecimal limit text = some n) :
    (decimal n).length ≤ text.length ∧ ((decimal n).length = text.length → decimal n = text) := by
  simp only [parseDecimal] at h
  split at h
  · rename_i good
    cases h
    have digits := List.all_eq_true.mp good.2.1
    have filled := List.length_pos_iff.mpr good.1
    refine ⟨decimal_length_le filled (digitsValue_lt digits), fun same => ?_⟩
    exact digits_of_value same (decimal_digits _) digits (digitsValue_decimal _)
  · cases h

theorem join_fields {line : Bytes} {a b c d : Bytes} (h : line.splitOn tab = [a, b, c, d]) :
    line = a ++ tab :: (b ++ tab :: (c ++ tab :: d)) := by
  have whole : [tab].intercalate (line.splitOn tab) = line := List.intercalate_splitOn tab
  rw [h] at whole
  rw [← whole]
  simp [List.intercalate]

theorem parseEvent_ok {line : Bytes} {event : StateEvent} (h : parseEvent line = .ok event) :
    line.length ≤ kMaximumEventLineBytes ∧ ValidEvent event
      ∧ ∃ epoch_text, line.splitOn tab = [epoch_text, event.kind, event.project_name, event.client_id]
        ∧ parseDecimal (2 ^ 64 - 1) epoch_text = some event.epoch_seconds.toNat := by
  unfold parseEvent at h
  simp only [bind_ok, rejectIf_ok] at h
  obtain ⟨_, framing, h⟩ := h
  split at h
  · rename_i epoch_text kind project_name client_id fields
    split at h
    · rename_i epoch number
      simp only [bind_ok, rejectIf_ok, pure_ok] at h
      obtain ⟨_, good, rfl⟩ := h
      have small := parseDecimal_le number
      have size : UInt64.size = 2 ^ 64 := rfl
      refine ⟨Nat.not_lt.mp fun long => framing (.inr long), not_not.mp good, epoch_text, fields, ?_⟩
      rw [number]
      simp only [Option.some.injEq]
      exact (UInt64.toNat_ofNat_of_lt' (by omega)).symm
    · cases h
  · cases h

/-- The line an event is written on is no longer than the one it was read from. -/
theorem eventLine_shortest {line : Bytes} {event : StateEvent} (h : parseEvent line = .ok event) :
    (eventLine event).length ≤ line.length ∧ ((eventLine event).length = line.length → eventLine event = line) := by
  obtain ⟨_, _, epoch_text, fields, number⟩ := parseEvent_ok h
  obtain ⟨shorter, same⟩ := decimal_shortest number
  have shape := join_fields fields
  have written : eventLine event = decimal event.epoch_seconds.toNat ++ tab :: (event.kind
      ++ tab :: (event.project_name ++ tab :: event.client_id)) := by
    simp [eventLine]
  rw [written, shape]
  simp only [List.length_append, List.length_cons]
  refine ⟨by omega, fun equal => ?_⟩
  rw [same (by omega)]

theorem parseEvent_readable {line : Bytes} {event : StateEvent} (h : parseEvent line = .ok event) :
    Readable event := by
  obtain ⟨short, valid, _⟩ := parseEvent_ok h
  exact ⟨valid, (eventLine_shortest h).1.trans short⟩

/-- The end of a line, where it is a line itself, is of the same project. -/
theorem parseEvent_suffix {line last : Bytes} {event other : StateEvent} (h : parseEvent line = .ok event)
    (suffix : last <:+ line) (read : parseEvent last = .ok other) : other.project_name = event.project_name := by
  obtain ⟨_, _, whole_epoch, whole, _⟩ := parseEvent_ok h
  obtain ⟨_, _, epoch_text, fields, _⟩ := parseEvent_ok read
  obtain ⟨front, rfl⟩ := suffix
  have shape := join_fields fields
  have tabs : tab ∉ other.kind ∧ tab ∉ other.project_name ∧ tab ∉ other.client_id :=
    ((parseEvent_ok read).2.1.avoids (.inl rfl)).2
  rw [shape, ← List.append_assoc, List.splitOn_append_cons_self, List.splitOn_append_cons_self_of_not_mem tabs.1,
    List.splitOn_append_cons_self_of_not_mem tabs.2.1, List.splitOn_eq_singleton tabs.2.2] at whole
  -- Both lines have three tabs, so nothing but the first field is cut.
  have first : ((front ++ epoch_text).splitOn tab).length = 1 := by
    have count := congrArg List.length whole
    rw [List.length_append] at count
    simpa using count
  obtain ⟨piece, single⟩ := List.length_eq_one_iff.mp first
  rw [single] at whole
  simp only [List.singleton_append, List.cons.injEq] at whole
  exact whole.2.2.1

/-- The complete lines of a log and its torn end. -/
theorem log_lines (content : Bytes) : ∃ lines tail, content = framed lines ++ tail ∧ newline ∉ tail
    ∧ ∀ line ∈ lines, newline ∉ line := by
  induction content with
  | nil => exact ⟨[], [], rfl, List.not_mem_nil, nofun⟩
  | cons byte rest ih =>
    obtain ⟨lines, tail, whole, torn, clean⟩ := ih
    by_cases ended : byte = newline
    · exact ⟨[] :: lines, tail, by simp [whole, ended], torn, List.forall_mem_cons.mpr ⟨List.not_mem_nil, clean⟩⟩
    · cases lines with
      | nil => exact ⟨[], byte :: tail, by simp [whole], by simp [torn, Ne.symm ended], nofun⟩
      | cons line lines =>
        have front := clean line List.mem_cons_self
        refine ⟨(byte :: line) :: lines, tail, by simp [whole], torn, List.forall_mem_cons.mpr ⟨?_, ?_⟩⟩
        · simp [front, Ne.symm ended]
        · exact fun other member => clean other (List.mem_cons_of_mem _ member)

abbrev Reads (lines : List Bytes) (events : List StateEvent) : Prop :=
  List.Forall₂ (fun line event => parseEvent line = .ok event) lines events

theorem parseEvents_framed {lines : List Bytes} {tail : Bytes} (clean : ∀ line ∈ lines, newline ∉ line)
    (torn : newline ∉ tail) : parseEvents (framed lines ++ tail) = lines.mapM parseEvent := by
  rw [parseEvents, splitOn_torn clean torn, List.dropLast_concat]

theorem parseEvents_ok {content : Bytes} {events : List StateEvent} (h : parseEvents content = .ok events) :
    ∃ lines tail, content = framed lines ++ tail ∧ newline ∉ tail ∧ (∀ line ∈ lines, newline ∉ line)
      ∧ Reads lines events := by
  obtain ⟨lines, tail, rfl, torn, clean⟩ := log_lines content
  exact ⟨lines, tail, rfl, torn, clean, mapM_ok (parseEvents_framed clean torn ▸ h)⟩

theorem Reads.readable {lines : List Bytes} {events : List StateEvent} (h : Reads lines events) :
    ∀ event ∈ events, Readable event := by
  induction h with
  | nil => exact nofun
  | cons first _ ih => exact List.forall_mem_cons.mpr ⟨parseEvent_readable first, ih⟩

end CkGit.Events
