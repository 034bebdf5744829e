import CkGit.Ci.JobCodec
import CkGit.Events.Log

/-!
What the event log reads back: a record line gives its event, a torn last line
is ignored, and the archive names sort by month and sequence with the live log
last.
-/
namespace CkGit.Events
open CkGit.Base CkGit.Ci

/-- An event appendStateEvent writes. -/
def Writable (event : StateEvent) : Prop :=
  ValidEvent event ∧ (serializeEvent event).length ≤ kMaximumEventLineBytes

/-- An event a log may hold: a line need not leave room for its end. -/
def Readable (event : StateEvent) : Prop :=
  ValidEvent event ∧ (eventLine event).length ≤ kMaximumEventLineBytes

theorem kind_avoids {kind : Bytes} {byte : UInt8} (h : isValidEventKind kind)
    (other : (isLowerCase byte || byte == '-'.toUInt8) = false) : byte ∉ kind := by
  simp only [isValidEventKind, Bool.and_eq_true] at h
  intro member
  have allowed := List.all_eq_true.mp h.2 byte member
  rw [other] at allowed
  cases allowed

theorem client_avoids {client_id : Bytes} {byte : UInt8} (h : isValidClientId client_id)
    (other : (isAlnum byte || byte == '-'.toUInt8 || byte == '_'.toUInt8) = false) :
    byte ∉ client_id := by
  simp only [isValidClientId, Bool.and_eq_true] at h
  intro member
  have allowed := List.all_eq_true.mp h.2 byte member
  rw [other] at allowed
  cases allowed

/-- No field of a valid event holds a tab or a newline. -/
theorem ValidEvent.avoids {event : StateEvent} (h : ValidEvent event) {byte : UInt8}
    (separator : byte = tab ∨ byte = newline) :
    byte ∉ decimal event.epoch_seconds.toNat ∧ byte ∉ event.kind ∧ byte ∉ event.project_name
      ∧ byte ∉ event.client_id := by
  obtain ⟨kind, project, client⟩ := h
  have names := isValidProjectName_characters project
  rcases separator with rfl | rfl
  · exact ⟨decimal_avoids rfl, kind_avoids kind rfl, not_mem_of_all names rfl, client_avoids client rfl⟩
  · exact ⟨decimal_avoids rfl, kind_avoids kind rfl, not_mem_of_all names rfl, client_avoids client rfl⟩

theorem eventLine_newline {event : StateEvent} (h : ValidEvent event) : newline ∉ eventLine event := by
  obtain ⟨epoch, kind, project, client⟩ := h.avoids (.inr rfl)
  have tabs : newline ≠ tab := by decide
  simp [eventLine, epoch, kind, project, client, tabs]

theorem eventLine_fields {event : StateEvent} (h : ValidEvent event) :
    (eventLine event).splitOn tab
      = [decimal event.epoch_seconds.toNat, event.kind, event.project_name, event.client_id] := by
  obtain ⟨epoch, kind, project, client⟩ := h.avoids (.inl rfl)
  have shape : eventLine event = decimal event.epoch_seconds.toNat ++ tab :: (event.kind
      ++ tab :: (event.project_name ++ tab :: event.client_id)) := by
    simp [eventLine]
  rw [shape, List.splitOn_append_cons_self_of_not_mem epoch,
    List.splitOn_append_cons_self_of_not_mem kind,
    List.splitOn_append_cons_self_of_not_mem project, List.splitOn_eq_singleton client]

theorem serializeEvent_length (event : StateEvent) :
    (serializeEvent event).length = (eventLine event).length + 1 := by
  simp [serializeEvent]

theorem Writable.readable {event : StateEvent} (h : Writable event) : Readable event := by
  have length := serializeEvent_length event
  have short := h.2
  exact ⟨h.1, by omega⟩

theorem parseEvent_eventLine {event : StateEvent} (h : Readable event) :
    parseEvent (eventLine event) = .ok event := by
  have small : event.epoch_seconds.toNat ≤ 2 ^ 64 - 1 := by
    have := event.epoch_seconds.toNat_lt
    omega
  have framing : ¬ ((eventLine event).isEmpty ∨ (eventLine event).length > kMaximumEventLineBytes) := by
    rintro (empty | long)
    · simp [eventLine] at empty
    · exact Nat.not_lt.mpr h.2 long
  have fields := eventLine_fields h.1
  have epoch := parseDecimal_decimal small
  unfold parseEvent
  rw [fields, bind_ok]
  refine ⟨(), rejectIf_ok.mpr framing, ?_⟩
  simp only [epoch]
  rw [bind_ok]
  refine ⟨(), rejectIf_ok.mpr (not_not.mpr h.1), ?_⟩
  rw [pure_ok]
  cases event
  simp

theorem splitOn_torn {lines : List Bytes} {tail : Bytes} (clean : ∀ line ∈ lines, newline ∉ line)
    (torn : newline ∉ tail) : (framed lines ++ tail).splitOn newline = lines ++ [tail] := by
  induction lines with
  | nil => exact List.splitOn_eq_singleton torn
  | cons line rest ih =>
    have shape : framed (line :: rest) ++ tail = line ++ newline :: (framed rest ++ tail) := by simp
    rw [shape, List.splitOn_append_cons_self_of_not_mem (clean line List.mem_cons_self),
      ih fun other member => clean other (List.mem_cons_of_mem _ member)]
    rfl

def records (events : List StateEvent) : Bytes := events.flatMap serializeEvent

theorem records_framed (events : List StateEvent) : records events = framed (events.map eventLine) := by
  induction events with
  | nil => rfl
  | cons event rest ih => simp [records, serializeEvent] at ih ⊢; exact ih

/-- A torn last line is ignored. -/
theorem parseEvents_records {events : List StateEvent} {tail : Bytes}
    (written : ∀ event ∈ events, Readable event) (torn : newline ∉ tail) :
    parseEvents (records events ++ tail) = .ok events := by
  have clean : ∀ line ∈ events.map eventLine, newline ∉ line := by
    intro line member
    obtain ⟨event, which, rfl⟩ := List.mem_map.mp member
    exact eventLine_newline (written event which).1
  rw [parseEvents, records_framed, splitOn_torn clean torn, List.dropLast_concat]
  apply mapM_of_forall₂
  rw [List.forall₂_map_left_iff, List.forall₂_same]
  exact fun event member => parseEvent_eventLine (written event member)

theorem textBefore_irrefl (text : Bytes) : textBefore text text = false := by
  induction text with
  | nil => rfl
  | cons byte rest ih => simp [textBefore, ih]

theorem textBefore_asymm {a b : Bytes} (h : textBefore a b) : textBefore b a = false := by
  induction a generalizing b with
  | nil =>
    cases b with
    | nil => rfl
    | cons => rfl
  | cons x xs ih =>
    cases b with
    | nil => cases h
    | cons y ys =>
      simp only [textBefore, Bool.or_eq_true, Bool.and_eq_true, decide_eq_true_eq, beq_iff_eq] at h
      rcases h with less | ⟨rfl, later⟩
      · have not_less : ¬ y < x := UInt8.not_lt.mpr (UInt8.le_of_lt less)
        have not_same : (y == x) = false := beq_eq_false_iff_ne.mpr (UInt8.ne_of_lt less).symm
        simp [textBefore, not_less, not_same]
      · simp [textBefore, ih later]

theorem textBefore_append_left (front : Bytes) {a b : Bytes} (h : textBefore a b) :
    textBefore (front ++ a) (front ++ b) := by
  induction front with
  | nil => exact h
  | cons byte rest ih => simp [textBefore, ih]

theorem textBefore_append_right {a b : Bytes} (same : a.length = b.length) (h : textBefore a b)
    (x y : Bytes) : textBefore (a ++ x) (b ++ y) := by
  induction a generalizing b with
  | nil =>
    cases b with
    | nil => cases h
    | cons => cases same
  | cons c cs ih =>
    cases b with
    | nil => cases h
    | cons d ds =>
      simp only [textBefore, List.cons_append, Bool.or_eq_true, Bool.and_eq_true] at h ⊢
      rcases h with less | ⟨equal, later⟩
      · exact .inl less
      · exact .inr ⟨equal, ih (by simpa using same) later⟩

theorem foldl_value (text : Bytes) (start : Nat) :
    text.foldl (fun value byte => 10 * value + (byte.toNat - '0'.toNat)) start
      = start * 10 ^ text.length + digitsValue text := by
  induction text generalizing start with
  | nil => simp [digitsValue]
  | cons byte rest ih =>
    simp only [List.foldl_cons, digitsValue, List.length_cons]
    rw [ih, ih (10 * 0 + _), Nat.pow_succ, Nat.add_mul, Nat.mul_zero, Nat.zero_add, Nat.mul_comm 10,
      Nat.mul_assoc, Nat.mul_comm 10, Nat.add_assoc]

theorem digitsValue_cons (byte : UInt8) (rest : Bytes) :
    digitsValue (byte :: rest) = (byte.toNat - 48) * 10 ^ rest.length + digitsValue rest := by
  have start := foldl_value rest (10 * 0 + (byte.toNat - '0'.toNat))
  simpa [digitsValue] using start

theorem isDigit_bounds {byte : UInt8} (h : isDigit byte) : 48 ≤ byte.toNat ∧ byte.toNat ≤ 57 := by
  simp only [isDigit, Bool.and_eq_true, decide_eq_true_eq, UInt8.le_iff_toNat_le] at h
  exact h

theorem digitsValue_lt {text : Bytes} (digits : ∀ byte ∈ text, isDigit byte) :
    digitsValue text < 10 ^ text.length := by
  induction text with
  | nil => simp [digitsValue]
  | cons byte rest ih =>
    have later := ih fun other member => digits other (List.mem_cons_of_mem _ member)
    have bounds := isDigit_bounds (digits byte List.mem_cons_self)
    have first : (byte.toNat - 48) * 10 ^ rest.length ≤ 9 * 10 ^ rest.length :=
      Nat.mul_le_mul_right _ (by omega)
    rw [digitsValue_cons, List.length_cons, Nat.pow_succ]
    omega

/-- Digits of one length are ordered as their values. -/
theorem textBefore_cases {a b : Bytes} (same : a.length = b.length) (left : ∀ byte ∈ a, isDigit byte)
    (right : ∀ byte ∈ b, isDigit byte) :
    a = b ∨ digitsValue a < digitsValue b ∧ textBefore a b ∨ digitsValue b < digitsValue a ∧ textBefore b a := by
  induction a generalizing b with
  | nil => exact .inl (List.length_eq_zero_iff.mp same.symm).symm
  | cons x xs ih =>
    cases b with
    | nil => cases same
    | cons y ys =>
      have lengths : xs.length = ys.length := by simpa using same
      have leftRest : ∀ byte ∈ xs, isDigit byte := fun byte member => left byte (List.mem_cons_of_mem _ member)
      have rightRest : ∀ byte ∈ ys, isDigit byte := fun byte member => right byte (List.mem_cons_of_mem _ member)
      have xBounds := isDigit_bounds (left x List.mem_cons_self)
      have yBounds := isDigit_bounds (right y List.mem_cons_self)
      have xSmall := digitsValue_lt leftRest
      have ySmall := digitsValue_lt rightRest
      rw [lengths] at xSmall
      rw [digitsValue_cons, digitsValue_cons, lengths]
      simp only [textBefore, Bool.or_eq_true, Bool.and_eq_true, decide_eq_true_eq, beq_iff_eq]
      rcases Nat.lt_trichotomy x.toNat y.toNat with before | equal | after
      · have gap : (x.toNat - 48 + 1) * 10 ^ ys.length ≤ (y.toNat - 48) * 10 ^ ys.length :=
          Nat.mul_le_mul_right _ (by omega)
        rw [Nat.succ_mul] at gap
        exact .inr (.inl ⟨by omega, .inl (UInt8.lt_iff_toNat_lt.mpr before)⟩)
      · obtain rfl := UInt8.toNat_inj.mp equal
        rcases ih lengths leftRest rightRest with rfl | ⟨less, before⟩ | ⟨less, before⟩
        · exact .inl rfl
        · exact .inr (.inl ⟨by omega, .inr ⟨rfl, before⟩⟩)
        · exact .inr (.inr ⟨by omega, .inr ⟨rfl, before⟩⟩)
      · have gap : (y.toNat - 48 + 1) * 10 ^ ys.length ≤ (x.toNat - 48) * 10 ^ ys.length :=
          Nat.mul_le_mul_right _ (by omega)
        rw [Nat.succ_mul] at gap
        exact .inr (.inr ⟨by omega, .inl (UInt8.lt_iff_toNat_lt.mpr after)⟩)

theorem textBefore_of_value {a b : Bytes} (same : a.length = b.length)
    (left : ∀ byte ∈ a, isDigit byte) (right : ∀ byte ∈ b, isDigit byte)
    (less : digitsValue a < digitsValue b) : textBefore a b := by
  rcases textBefore_cases same left right with rfl | ⟨-, before⟩ | ⟨more, -⟩
  · exact absurd less (lt_irrefl _)
  · exact before
  · exact absurd (less.trans more) (lt_irrefl _)

theorem padded_length {width n : Nat} (positive : 0 < width) (h : n < 10 ^ width) :
    (padded width n).length = width := by
  have := decimal_length_le positive h
  simp only [padded, List.length_append, List.length_replicate]
  omega

theorem padded_digits (width n : Nat) : ∀ byte ∈ padded width n, isDigit byte := by
  intro byte member
  rcases List.mem_append.mp member with zero | digit
  · rw [List.eq_of_mem_replicate zero]
    rfl
  · exact decimal_digits n byte digit

theorem padded_value (width n : Nat) : digitsValue (padded width n) = n := by
  have zeros : ∀ k, digitsValue (List.replicate k '0'.toUInt8) = 0 := by
    intro k
    induction k with
    | zero => rfl
    | succ k ih => rw [List.replicate_succ, digitsValue_cons, ih]; exact Nat.zero_mul _
  have whole : digitsValue (padded width n)
      = digitsValue (List.replicate (width - (decimal n).length) '0'.toUInt8) * 10 ^ (decimal n).length
        + digitsValue (decimal n) := by
    conv_lhs => rw [digitsValue, padded, List.foldl_append, foldl_value]
    rfl
  rw [whole, zeros, digitsValue_decimal]
  simp

theorem padded_before {width m n : Nat} (positive : 0 < width) (less : m < n) (h : n < 10 ^ width) :
    textBefore (padded width m) (padded width n) := by
  apply textBefore_of_value
  · rw [padded_length positive h, padded_length positive (by omega)]
  · exact padded_digits width m
  · exact padded_digits width n
  · rwa [padded_value, padded_value]

end CkGit.Events
