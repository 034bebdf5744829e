import CkGit.Events.Reading

/-!
Crash safety of the event log: after any appends, returned, refused or cut off,
every returned event is read back once and in order, as long as no record is
completed on a torn line, no crash falls between the link and the unlink of a
rotation and no archive is made in an earlier month than one already there.
-/
namespace CkGit.Events
open CkGit.Base CkGit.Ci

structure Attempt where
  event : StateEvent
  now : Nat
  /-- The file operations done before a crash. -/
  cut : Option Nat
  deriving DecidableEq, Repr

inductive Outcome where
  | returned
  | threw
  | cut
  deriving DecidableEq, Repr

def attempt (a : Attempt) (directory : EventDirectory) : Outcome × EventDirectory :=
  let program := appendStateEvent a.event a.now
  match a.cut with
  | some writes => (.cut, program.cutAfter writes directory)
  | none =>
    match program.exec directory with
    | (.ok _, after) => (.returned, after)
    | (.error _, after) => (.threw, after)

/-- The outcome of each append in turn, and the directory they leave. -/
def runFrom (directory : EventDirectory) : List Attempt → List (StateEvent × Outcome) × EventDirectory
  | [] => ([], directory)
  | a :: rest =>
    let (outcome, after) := attempt a directory
    let (history, last) := runFrom after rest
    ((a.event, outcome) :: history, last)

/-- The events of a history: each returned one once, at most the interrupted one of each
crash, in the order of their appends. -/
inductive Explains : List (StateEvent × Outcome) → List StateEvent → Prop where
  | nil : Explains [] []
  | returned {event history events} (rest : Explains history events) :
      Explains ((event, .returned) :: history) (event :: events)
  | threw {event history events} (rest : Explains history events) :
      Explains ((event, .threw) :: history) events
  | lost {event history events} (rest : Explains history events) :
      Explains ((event, .cut) :: history) events
  | kept {event history events} (rest : Explains history events) :
      Explains ((event, .cut) :: history) (event :: events)

def emptyDirectory : EventDirectory := { entries := [], files := [] }

/-- Loading succeeds and gives the events of the run. -/
def CrashSafe (attempts : List Attempt) : Prop :=
  ∃ events, loadEvents (runFrom emptyDirectory attempts).2 = .ok events
    ∧ Explains (runFrom emptyDirectory attempts).1 events

/-- The live log ends in an incomplete line. -/
def Torn (directory : EventDirectory) : Prop :=
  ∃ byte, (directory.content liveLog).getLast? = some byte ∧ byte ≠ newline

/-- The record does not fit the live log. -/
def Full (event : StateEvent) (directory : EventDirectory) : Prop :=
  kMaximumEventLogBytes
    < ((directory.create liveLog).content liveLog).length + (serializeEvent event).length

structure Meets (a : Attempt) (directory : EventDirectory) : Prop where
  /-- A record that reaches a torn line is cut off too. -/
  whole : Writable a.event → Torn directory → ¬ Full a.event directory →
    ∃ writes, a.cut = some writes ∧ writes ≤ (serializeEvent a.event).length
  /-- A rotation's month is not before that of an archive. -/
  forward : Writable a.event → Full a.event directory → ∀ month sequence,
    archiveName (monthText month) sequence ∈ directory.names → month ≤ monthNumber a.now
  /-- No crash between the link and the unlink. -/
  linked : Writable a.event → Full a.event directory → a.cut ≠ some 2

def RunMeets (directory : EventDirectory) : List Attempt → Prop
  | [] => True
  | a :: rest => Meets a directory ∧ RunMeets (attempt a directory).2 rest

/-- Months of four-digit years. -/
def InRange (month : Nat) : Prop := (decimal (month / 12)).length = 4

theorem monthText_length {month : Nat} (h : InRange month) : (monthText month).length = 7 := by
  have two : (padded 2 (month % 12 + 1)).length = 2 := padded_length (by decide) (by omega)
  simp only [monthText, List.length_append, List.length_cons, two]
  rw [h]

theorem monthNumber_year (now : Nat) : 1000 ≤ monthNumber now / 12 := by
  have era : 4 ≤ (now / 86400 + 719468) / 146097 := by
    rw [Nat.le_div_iff_mul_le (by decide)]
    have enough : 4 * 146097 ≤ 719468 := by decide
    exact Nat.le_trans enough (Nat.le_add_left _ _)
  unfold monthNumber
  simp only
  generalize (now / 86400 + 719468) / 146097 = era at *
  rw [Nat.le_div_iff_mul_le (by decide)]
  omega

theorem decimal_length_year {year : Nat} (h : 1000 ≤ year) : 4 ≤ (decimal year).length := by
  have four : (decimal 1000).length = 4 := by simp [decimal, Nat.toDigits_eq_if]
  rw [← four]
  exact decimal_length_mono h

theorem inRange_of_short {month : Nat} (year : 1000 ≤ month / 12)
    (short : (monthText month).length ≤ 7) : InRange month := by
  have two : (padded 2 (month % 12 + 1)).length = 2 := padded_length (by decide) (by omega)
  simp only [monthText, List.length_append, List.length_cons, two] at short
  have long := decimal_length_year year
  unfold InRange
  omega

theorem archiveMonth_ok {now : Nat} {month : Bytes} (h : archiveMonth now = .ok month) :
    month = monthText (monthNumber now) ∧ InRange (monthNumber now) := by
  simp only [archiveMonth, bind_ok, rejectIf_ok, pure_ok] at h
  obtain ⟨_, short, rfl⟩ := h
  exact ⟨rfl, inRange_of_short (monthNumber_year now) (Nat.not_lt.mp short)⟩

theorem archiveName_length {month sequence : Nat} (h : InRange month) (small : sequence < 1000000) :
    (archiveName (monthText month) sequence).length = if sequence = 0 then 18 else 25 := by
  have seven := monthText_length h
  have six : (padded 6 sequence).length = 6 := padded_length (by decide) small
  have front : (ascii "events.").length = 7 := rfl
  have back : (ascii ".log").length = 4 := rfl
  unfold archiveName
  split <;> simp [seven, six, front, back]

theorem archiveName_ne_live {month sequence : Nat} (h : InRange month) (small : sequence < 1000000) :
    archiveName (monthText month) sequence ≠ liveLog := by
  intro same
  have length := congrArg List.length same
  rw [archiveName_length h small] at length
  have live : liveLog.length = 10 := rfl
  rw [live] at length
  split at length <;> omega

/-- The first archive of a month sorts as sequence 0. -/
theorem key_archiveName {month sequence : Nat} (h : InRange month) (small : sequence < 1000000) :
    key (archiveName (monthText month) sequence)
      = ascii "events." ++ monthText month ++ '.'.toUInt8 :: padded 6 sequence ++ ascii ".log" := by
  have length := archiveName_length h small
  have seven := monthText_length h
  have pattern : (ascii "events.2026-09.log").length = 18 := rfl
  rw [key, if_neg (archiveName_ne_live h small), pattern]
  by_cases first : sequence = 0
  · subst first
    rw [if_pos rfl] at length
    rw [if_pos length, length]
    have front : (ascii "events." ++ monthText month).length = 14 := by
      rw [List.length_append, seven]
      rfl
    have zero : ascii ".000000.log" = '.'.toUInt8 :: padded 6 0 ++ ascii ".log" := by decide
    have cut : (archiveName (monthText month) 0).take (18 - 4) = ascii "events." ++ monthText month := by
      rw [archiveName, if_pos rfl, List.append_nil]
      exact List.take_left' front
    rw [cut, zero, List.append_assoc, List.append_assoc, List.append_assoc]
  · rw [if_neg first] at length
    rw [if_neg (by omega), archiveName, if_neg first]

theorem key_live : key liveLog = ascii "~" := if_pos rfl

theorem key_before_live {month sequence : Nat} (h : InRange month) (small : sequence < 1000000) :
    textBefore (key (archiveName (monthText month) sequence)) (key liveLog) := by
  rw [key_archiveName h small, key_live]
  rfl

theorem monthText_before {m n : Nat} (hm : InRange m) (hn : InRange n) (less : m < n) :
    textBefore (monthText m) (monthText n) := by
  by_cases year : m / 12 < n / 12
  · apply textBefore_append_right
    · rw [hm, hn]
    · apply textBefore_of_value
      · rw [hm, hn]
      · exact decimal_digits _
      · exact decimal_digits _
      · rwa [digitsValue_decimal, digitsValue_decimal]
  · have same : m / 12 = n / 12 := by omega
    have later : textBefore (padded 2 (m % 12 + 1)) (padded 2 (n % 12 + 1)) :=
      padded_before (by decide) (by omega) (by omega)
    rw [monthText, monthText, same]
    apply textBefore_append_left
    exact textBefore_append_left ['-'.toUInt8] later

/-- Archives sort by month, then by sequence. -/
theorem key_before {m n s t : Nat} (hm : InRange m) (hn : InRange n) (hs : s < 1000000)
    (ht : t < 1000000) (less : m < n ∨ m = n ∧ s < t) :
    textBefore (key (archiveName (monthText m) s)) (key (archiveName (monthText n) t)) := by
  rw [key_archiveName hm hs, key_archiveName hn ht]
  rcases less with earlier | ⟨rfl, earlier⟩
  · have months := textBefore_append_right (by rw [monthText_length hm, monthText_length hn])
      (monthText_before hm hn earlier)
      ('.'.toUInt8 :: padded 6 s ++ ascii ".log") ('.'.toUInt8 :: padded 6 t ++ ascii ".log")
    have whole := textBefore_append_left (ascii "events.") months
    simpa [List.append_assoc] using whole
  · have six : (padded 6 s).length = 6 := padded_length (by decide) hs
    have sequences := textBefore_append_right
      (by rw [six, padded_length (by decide) ht]) (padded_before (by decide) earlier ht)
      (ascii ".log") (ascii ".log")
    have whole := textBefore_append_left (ascii "events." ++ monthText m ++ ['.'.toUInt8]) sequences
    simpa [List.append_assoc] using whole

theorem isEventLog_archive (month : Bytes) (sequence : Nat) : isEventLog (archiveName month sequence) := by
  have front : (ascii "events.").isPrefixOf (archiveName month sequence) := by
    rw [List.isPrefixOf_iff_prefix, archiveName, List.append_assoc, List.append_assoc]
    exact List.prefix_append _ _
  have back : (ascii ".log").isSuffixOf (archiveName month sequence) := by
    rw [List.isSuffixOf_iff_suffix, archiveName]
    exact List.suffix_append _ _
  simp [isEventLog, front, back]

/-- One log: its name, its whole records and its torn last line. -/
structure Part where
  name : Bytes
  events : List StateEvent
  tail : Bytes

def Part.content (part : Part) : Bytes := records part.events ++ part.tail

/-- An archive of a month with its number, whose predecessors are there too. -/
def IsArchive (names : List Bytes) (name : Bytes) : Prop :=
  ∃ month sequence, InRange month ∧ sequence < 1000000 ∧ name = archiveName (monthText month) sequence
    ∧ ∀ earlier < sequence, archiveName (monthText month) earlier ∈ names

/-- The directory holds these logs, each under one name, in the order they are loaded. -/
structure Laid (directory : EventDirectory) (parts : List Part) : Prop where
  entries : directory.entries = (parts.map (·.name)).zipIdx
  files : directory.files = parts.map (·.content)
  readable : ∀ part ∈ parts, (∀ event ∈ part.events, Writable event) ∧ newline ∉ part.tail
    ∧ part.content.length ≤ kMaximumEventLogBytes
  ordered : parts.Pairwise fun earlier later => textBefore (key earlier.name) (key later.name)
  named : ∀ part ∈ parts, part.name = liveLog ∨ IsArchive (parts.map (·.name)) part.name

namespace Laid
variable {directory : EventDirectory} {parts : List Part}

theorem names (h : Laid directory parts) : directory.names = parts.map (·.name) := by
  rw [EventDirectory.names, h.entries]
  exact List.zipIdx_map_fst 0 _

theorem nodup (h : Laid directory parts) : (parts.map (·.name)).Nodup := by
  rw [List.Nodup, List.pairwise_map]
  apply h.ordered.imp
  intro earlier later before same
  rw [same, textBefore_irrefl] at before
  cases before

theorem find_none {name : Bytes} (h : Laid directory parts) :
    directory.find name = none ↔ name ∉ parts.map (·.name) := by
  rw [EventDirectory.find, List.lookup_eq_none_iff, ← h.names, EventDirectory.names, List.mem_map]
  constructor
  · rintro all ⟨entry, member, rfl⟩
    exact bne_iff_ne.mp (all entry member) rfl
  · intro absent entry member
    exact bne_iff_ne.mpr fun same => absent ⟨entry, member, same.symm⟩

theorem find_at (h : Laid directory parts) {front back : List Part} {part : Part}
    (split : parts = front ++ part :: back) : directory.find part.name = some front.length := by
  have absent : part.name ∉ front.map (·.name) := by
    have distinct := h.nodup
    rw [split, List.map_append, List.nodup_append] at distinct
    intro member
    exact distinct.2.2 _ member _ (List.mem_map_of_mem List.mem_cons_self) rfl
  have before : ((front.map (·.name)).zipIdx).lookup part.name = none := by
    rw [List.lookup_eq_none_iff]
    intro entry member
    apply bne_iff_ne.mpr
    intro same
    have inside := List.mem_map_of_mem (f := Prod.fst) member
    rw [List.zipIdx_map_fst, ← same] at inside
    exact absent inside
  have entries := h.entries
  rw [split, List.map_append, List.map_cons, List.zipIdx_append, List.zipIdx_cons] at entries
  rw [EventDirectory.find, entries, List.lookup_append, before]
  simp

theorem content_at (h : Laid directory parts) {part : Part} (member : part ∈ parts) :
    directory.content part.name = part.content := by
  obtain ⟨front, back, split⟩ := List.append_of_mem member
  rw [EventDirectory.content, h.find_at split, h.files, split]
  simp

/-- What is loaded. -/
theorem loads (h : Laid directory parts) :
    loadEvents directory = .ok (parts.flatMap (·.events)) := by
  have kept : (parts.map (·.name)).filter isEventLog = parts.map (·.name) := by
    rw [List.filter_eq_self]
    intro name member
    obtain ⟨part, which, rfl⟩ := List.mem_map.mp member
    rcases h.named part which with live | ⟨month, sequence, _, _, archive, _⟩
    · rw [live]
      rfl
    · rw [archive]
      exact isEventLog_archive _ _
  have sorted : eventLogNames directory = parts.map (·.name) := by
    rw [eventLogNames, h.names, kept]
    apply List.mergeSort_of_pairwise
    rw [List.pairwise_map]
    apply h.ordered.imp
    intro earlier later before
    rw [textBefore_asymm before]
    rfl
  have read : (parts.map (·.name)).mapM (readEvents directory) = .ok (parts.map (·.events)) := by
    apply mapM_of_forall₂
    rw [List.forall₂_map_left_iff, List.forall₂_map_right_iff, List.forall₂_same]
    intro part member
    obtain ⟨written, torn, fits⟩ := h.readable part member
    have size : ¬ part.content.length > kMaximumEventLogBytes := by omega
    simp only [readEvents, h.content_at member, bind_ok]
    exact ⟨(), rejectIf_ok.mpr size, parseEvents_records (fun event inside => (written event inside).readable) torn⟩
  rw [loadEvents, sorted, bind_ok]
  exact ⟨_, read, by rw [pure_ok, List.flatMap_def]⟩

/-- The live log is the last. -/
theorem live_last (h : Laid directory parts) (present : liveLog ∈ parts.map (·.name)) :
    ∃ archives live, parts = archives ++ [live] ∧ live.name = liveLog := by
  obtain ⟨live, member, named⟩ := List.mem_map.mp present
  obtain ⟨front, back, split⟩ := List.append_of_mem member
  refine ⟨front, live, ?_, named⟩
  cases back with
  | nil => exact split
  | cons next rest =>
    have ordered := h.ordered
    rw [split, List.pairwise_append, List.pairwise_cons] at ordered
    have before := ordered.2.1.1 next List.mem_cons_self
    rw [named] at before
    have inside : next ∈ parts := by
      rw [split]
      simp
    have after : textBefore (key next.name) (key liveLog) ∨ next.name = liveLog := by
      rcases h.named next inside with same | ⟨month, sequence, range, small, archive, _⟩
      · exact .inr same
      · rw [archive]
        exact .inl (key_before_live range small)
    rcases after with less | same
    · rw [textBefore_asymm less] at before
      cases before
    · rw [same, textBefore_irrefl] at before
      cases before

/-- Every log but the live one is an archive. -/
theorem archives (h : Laid directory parts) (absent : liveLog ∉ parts.map (·.name)) :
    ∀ part ∈ parts, IsArchive (parts.map (·.name)) part.name := by
  intro part member
  rcases h.named part member with live | archive
  · exact absurd (live ▸ List.mem_map_of_mem member) absent
  · exact archive

/-- A byte put on the live log. -/
theorem append {archives : List Part} {live : Part} (h : Laid directory (archives ++ [live]))
    (named : live.name = liveLog) {byte : UInt8} {next : Part} (same : next.name = liveLog)
    (content : next.content = live.content ++ [byte])
    (readable : (∀ event ∈ next.events, Writable event) ∧ newline ∉ next.tail
      ∧ next.content.length ≤ kMaximumEventLogBytes) :
    Laid (directory.append liveLog byte) (archives ++ [next]) := by
  have found : directory.find liveLog = some archives.length := named ▸ h.find_at (rfl : _ = archives ++ live :: [])
  have names : (archives ++ [next]).map (·.name) = (archives ++ [live]).map (·.name) := by
    simp [named, same]
  have files := h.files
  simp only [List.map_append, List.map_cons, List.map_nil] at files
  refine ⟨?_, ?_, ?_, ?_, ?_⟩
  · simp only [EventDirectory.append, found, names]
    exact h.entries
  · simp only [EventDirectory.append, found, files, List.map_append, List.map_cons, List.map_nil, content]
    rw [List.modify_eq_take_cons_drop (by simp)]
    simp
  · intro part member
    rcases List.mem_append.mp member with old | new
    · exact h.readable part (List.mem_append_left _ old)
    · rw [List.mem_singleton.mp new]
      exact readable
  · have ordered := h.ordered
    rw [List.pairwise_append] at ordered ⊢
    refine ⟨ordered.1, List.pairwise_singleton _ _, fun a left b right => ?_⟩
    rw [List.mem_singleton.mp right, same, ← named]
    exact ordered.2.2 a left live List.mem_cons_self
  · intro part member
    rw [names]
    rcases List.mem_append.mp member with old | new
    · exact h.named part (List.mem_append_left _ old)
    · rw [List.mem_singleton.mp new]
      exact .inl same

/-- Bytes put on the live log, none of them a newline, lengthen its torn line. -/
theorem append_tail {archives : List Part} {live : Part} (h : Laid directory (archives ++ [live]))
    (named : live.name = liveLog) {bytes : Bytes} (clean : newline ∉ bytes)
    (fits : live.content.length + bytes.length ≤ kMaximumEventLogBytes) :
    Laid (Prog.applyAll (bytes.map (EventDirectory.append liveLog)) directory)
      (archives ++ [{ live with tail := live.tail ++ bytes }]) := by
  induction bytes generalizing directory live with
  | nil => simpa using h
  | cons byte rest ih =>
    have readable := h.readable live (List.mem_append_right _ List.mem_cons_self)
    simp only [List.length_cons] at fits
    have first : newline ∉ live.tail ++ [byte] := by
      simp only [List.mem_append, List.mem_singleton, not_or]
      exact ⟨readable.2.1, fun same => clean (same ▸ List.mem_cons_self)⟩
    have room : (records live.events ++ (live.tail ++ [byte])).length ≤ kMaximumEventLogBytes := by
      simp only [Part.content, List.length_append, List.length_cons, List.length_nil] at fits ⊢
      omega
    have step : Laid (directory.append liveLog byte)
        (archives ++ [{ live with tail := live.tail ++ [byte] }]) :=
      h.append named named (by simp [Part.content]) ⟨readable.1, first, room⟩
    have rest := ih step named (fun member => clean (List.mem_cons_of_mem _ member)) (by
      simp only [Part.content, List.length_append, List.length_cons, List.length_nil] at fits ⊢
      omega)
    simpa using rest

/-- The first bytes of a record: a torn line, or the whole record on a whole log. -/
theorem write {archives : List Part} {live : Part} {event : StateEvent}
    (h : Laid directory (archives ++ [live])) (named : live.name = liveLog) (written : Writable event)
    (fits : live.content.length + (serializeEvent event).length ≤ kMaximumEventLogBytes) {count : Nat}
    (whole : (serializeEvent event).length ≤ count → live.tail = []) :
    ∃ next kept, Laid (Prog.applyAll (((serializeEvent event).take count).map
        (EventDirectory.append liveLog)) directory) (archives ++ [next])
      ∧ next.events = live.events ++ kept
      ∧ (kept = [] ∧ count < (serializeEvent event).length
        ∨ kept = [event] ∧ (serializeEvent event).length ≤ count) := by
  have length := serializeEvent_length event
  have clean := eventLine_newline written.1
  by_cases cut : count < (serializeEvent event).length
  · have start : (serializeEvent event).take count = (eventLine event).take count := by
      rw [serializeEvent, List.take_append_of_le_length (by omega)]
    rw [start]
    refine ⟨_, [], h.append_tail named (fun member => clean (List.mem_of_mem_take member)) ?_, ?_,
      .inl ⟨rfl, cut⟩⟩
    · have := List.length_take_le count (eventLine event)
      omega
    · simp
  · have empty := whole (by omega)
    have readable := h.readable live (List.mem_append_right _ List.mem_cons_self)
    let next : Part := { live with events := live.events ++ [event], tail := [] }
    refine ⟨next, [event], ?_, rfl, .inr ⟨rfl, Nat.not_lt.mp cut⟩⟩
    rw [List.take_of_length_le (by omega)]
    have line := h.append_tail named clean (by omega)
    have split : (serializeEvent event).map (EventDirectory.append liveLog)
        = (eventLine event).map (EventDirectory.append liveLog)
          ++ [EventDirectory.append liveLog newline] := by
      rw [serializeEvent, List.map_append, List.map_singleton]
    rw [split, Prog.applyAll_append]
    show Laid (EventDirectory.append liveLog newline _) (archives ++ [next])
    refine line.append named named ?_ ?_
    · simp [next, Part.content, empty, records, serializeEvent]
    · refine ⟨?_, List.not_mem_nil, ?_⟩
      · intro other member
        rcases List.mem_append.mp member with old | new
        · exact readable.1 other old
        · rw [List.mem_singleton.mp new]
          exact written
      · simp only [next, Part.content, empty, records, List.flatMap_append, List.flatMap_cons,
          List.flatMap_nil, List.length_append, List.length_nil] at fits ⊢
        omega

theorem whole_record {archives : List Part} {live : Part} {event : StateEvent}
    (h : Laid directory (archives ++ [live])) (named : live.name = liveLog) (written : Writable event)
    (fits : live.content.length + (serializeEvent event).length ≤ kMaximumEventLogBytes)
    (whole : live.tail = []) :
    ∃ next, Laid (Prog.applyAll ((serializeEvent event).map (EventDirectory.append liveLog)) directory)
        next
      ∧ next.flatMap (·.events) = (archives ++ [live]).flatMap (·.events) ++ [event] := by
  obtain ⟨next, kept, laid, added, which⟩ := h.write named written fits
    (fun _ : (serializeEvent event).length ≤ (serializeEvent event).length => whole)
  rw [List.take_length] at laid
  rcases which with ⟨_, less⟩ | ⟨rfl, _⟩
  · exact absurd less (lt_irrefl _)
  · exact ⟨_, laid, by simp [added]⟩

theorem cut_record {archives : List Part} {live : Part} {event : StateEvent} {count : Nat}
    (h : Laid directory (archives ++ [live])) (named : live.name = liveLog) (written : Writable event)
    (fits : live.content.length + (serializeEvent event).length ≤ kMaximumEventLogBytes)
    (whole : (serializeEvent event).length ≤ count → live.tail = []) :
    ∃ next kept, Laid (Prog.applyAll
        (((serializeEvent event).map (EventDirectory.append liveLog)).take count) directory) next
      ∧ next.flatMap (·.events) = (archives ++ [live]).flatMap (·.events) ++ kept
      ∧ (kept = [] ∨ kept = [event]) := by
  obtain ⟨next, kept, laid, added, which⟩ := h.write named written fits whole
  rw [List.map_take] at laid
  exact ⟨_, kept, laid, by simp [added], which.imp And.left And.left⟩

/-- Opening the live log. -/
theorem create (h : Laid directory parts) :
    ∃ archives live, Laid (directory.create liveLog) (archives ++ [live]) ∧ live.name = liveLog
      ∧ (archives ++ [live]).flatMap (·.events) = parts.flatMap (·.events)
      ∧ live.content = directory.content liveLog
      ∧ ∀ archive ∈ archives, archive.name ∈ directory.names := by
  by_cases present : liveLog ∈ parts.map (·.name)
  · obtain ⟨archives, live, rfl, named⟩ := h.live_last present
    have found : directory.find liveLog = some archives.length := named ▸ h.find_at (rfl : _ = archives ++ live :: [])
    have same : directory.create liveLog = directory := by
      rw [EventDirectory.create, found]
    refine ⟨archives, live, same.symm ▸ h, named, rfl, ?_, fun archive member => ?_⟩
    · rw [← named, h.content_at (List.mem_append_right _ List.mem_cons_self)]
    · rw [h.names]
      exact List.mem_map_of_mem (List.mem_append_left _ member)
  · have absent := h.find_none.mpr present
    have number : directory.files.length = parts.length := by
      rw [h.files, List.length_map]
    have live_key := key_live
    refine ⟨parts, ⟨liveLog, [], []⟩, ⟨?_, ?_, ?_, ?_, ?_⟩, rfl, by simp, ?_, ?_⟩
    · simp [EventDirectory.create, absent, h.entries, number, List.zipIdx_append]
    · simp [EventDirectory.create, absent, h.files, Part.content, records]
    · intro part member
      rcases List.mem_append.mp member with old | new
      · exact h.readable part old
      · rw [List.mem_singleton.mp new]
        simp [Part.content, records]
    · rw [List.pairwise_append]
      refine ⟨h.ordered, List.pairwise_singleton _ _, fun a left b right => ?_⟩
      rw [List.mem_singleton.mp right]
      obtain ⟨month, sequence, range, small, archive, _⟩ := h.archives present a left
      rw [archive]
      exact key_before_live range small
    · intro part member
      rcases List.mem_append.mp member with old | new
      · obtain ⟨month, sequence, range, small, archive, earlier⟩ := h.archives present part old
        refine .inr ⟨month, sequence, range, small, archive, fun number less => ?_⟩
        rw [List.map_append]
        exact List.mem_append_left _ (earlier number less)
      · rw [List.mem_singleton.mp new]
        exact .inl rfl
    · simp [EventDirectory.content, absent, Part.content, records]
    · intro archive member
      rw [h.names]
      exact List.mem_map_of_mem member

/-- The live log moved to the first free archive of a month. -/
theorem rotate {archives : List Part} {live : Part} {month sequence : Nat}
    (h : Laid directory (archives ++ [live])) (named : live.name = liveLog) (range : InRange month)
    (small : sequence < 1000000)
    (absent : archiveName (monthText month) sequence ∉ (archives ++ [live]).map (·.name))
    (earlier : ∀ number < sequence,
      archiveName (monthText month) number ∈ (archives ++ [live]).map (·.name))
    (forward : ∀ other number,
      archiveName (monthText other) number ∈ archives.map (·.name) → other ≤ month) :
    Laid ((directory.link liveLog (archiveName (monthText month) sequence)).unlink liveLog)
      (archives ++ [{ live with name := archiveName (monthText month) sequence }]) := by
  have found : directory.find liveLog = some archives.length := named ▸ h.find_at (rfl : _ = archives ++ live :: [])
  have notLive : ∀ archive ∈ archives, archive.name ≠ liveLog := by
    intro archive member same
    have distinct := h.nodup
    rw [List.map_append, List.nodup_append] at distinct
    exact distinct.2.2 _ (List.mem_map_of_mem member) _ (List.mem_map_of_mem List.mem_cons_self)
      (same.trans named.symm)
  have archived : ∀ archive ∈ archives, IsArchive ((archives ++ [live]).map (·.name)) archive.name := by
    intro archive member
    rcases h.named archive (List.mem_append_left _ member) with same | is
    · exact absurd same (notLive archive member)
    · exact is
  have inside : ∀ {other number}, InRange other → number < 1000000 →
      archiveName (monthText other) number ∈ (archives ++ [live]).map (·.name) →
      archiveName (monthText other) number ∈ archives.map (·.name) := by
    intro other number other_range other_small member
    rw [List.map_append, List.mem_append] at member
    rcases member with old | new
    · exact old
    · rw [List.map_singleton, List.mem_singleton, named] at new
      exact absurd new (archiveName_ne_live other_range other_small)
  refine ⟨?_, ?_, ?_, ?_, ?_⟩
  · have entries := h.entries
    simp only [List.map_append, List.zipIdx_append, List.map_cons, List.map_nil, named] at entries
    have kept : ((archives.map (·.name)).zipIdx).filter (fun entry => entry.1 != liveLog)
        = (archives.map (·.name)).zipIdx := by
      rw [List.filter_eq_self]
      intro entry member
      have which := List.mem_map_of_mem (f := Prod.fst) member
      rw [List.zipIdx_map_fst] at which
      obtain ⟨archive, from_archives, same⟩ := List.mem_map.mp which
      exact bne_iff_ne.mpr fun live_entry => notLive archive from_archives (same.trans live_entry)
    have other := archiveName_ne_live range small
    simp [EventDirectory.link, EventDirectory.unlink, found, entries, List.filter_append, kept, other,
      List.zipIdx_append]
  · simp only [EventDirectory.link, EventDirectory.unlink, found, h.files]
    simp [Part.content]
  · intro part member
    rcases List.mem_append.mp member with old | new
    · exact h.readable part (List.mem_append_left _ old)
    · rw [List.mem_singleton.mp new]
      exact h.readable live (List.mem_append_right _ List.mem_cons_self)
  · have ordered := h.ordered
    rw [List.pairwise_append] at ordered ⊢
    refine ⟨ordered.1, List.pairwise_singleton _ _, fun a left b right => ?_⟩
    rw [List.mem_singleton.mp right]
    obtain ⟨other, number, other_range, other_small, name, predecessors⟩ := archived a left
    rw [name]
    apply key_before other_range range other_small small
    have present := List.mem_map_of_mem (f := Part.name) left
    rw [name] at present
    rcases Nat.lt_or_eq_of_le (forward other number present) with less | same
    · exact .inl less
    · subst same
      refine .inr ⟨rfl, ?_⟩
      by_contra behind
      rcases Nat.lt_or_eq_of_le (Nat.not_lt.mp behind) with gap | equal
      · exact absent (predecessors sequence gap)
      · rw [equal] at absent
        exact absent (by
          rw [List.map_append]
          exact List.mem_append_left _ present)
  · intro part member
    rcases List.mem_append.mp member with old | new
    · obtain ⟨other, number, other_range, other_small, name, predecessors⟩ := archived part old
      refine .inr ⟨other, number, other_range, other_small, name, fun before less => ?_⟩
      rw [List.map_append]
      exact List.mem_append_left _ (inside other_range (by omega) (predecessors before less))
    · rw [List.mem_singleton.mp new]
      refine .inr ⟨month, sequence, range, small, rfl, fun before less => ?_⟩
      rw [List.map_append]
      exact List.mem_append_left _ (inside range (by omega) (earlier before less))

end Laid

theorem freeArchive_ok {month archive : Bytes} {directory : EventDirectory}
    (h : freeArchive month directory = .ok archive) :
    ∃ sequence < 1000000, archive = archiveName month sequence
      ∧ directory.find (archiveName month sequence) = none
      ∧ ∀ earlier < sequence, directory.find (archiveName month earlier) ≠ none := by
  simp only [freeArchive] at h
  generalize known : (List.range 1000000).find? _ = found at h
  cases found with
  | none => cases h
  | some sequence =>
    rw [List.find?_range_eq_some] at known
    obtain ⟨free, member, taken⟩ := known
    refine ⟨sequence, List.mem_range.mp member, (Except.ok.inj h).symm, by simpa using free, ?_⟩
    intro earlier less
    exact Option.isSome_iff_ne_none.mp (by simpa using taken earlier less)

theorem unlink_find (directory : EventDirectory) : (directory.unlink liveLog).find liveLog = none := by
  rw [EventDirectory.find, List.lookup_eq_none_iff]
  intro entry member
  have other := (List.mem_filter.mp member).2
  exact bne_iff_ne.mpr (bne_iff_ne.mp other).symm

theorem createRotated_trail (directory : EventDirectory) :
    createRotated.trail (directory.unlink liveLog) = ([EventDirectory.create liveLog], .ok ()) := by
  have checked : (Prog.reads fun directory : EventDirectory => rejectIf
      (directory.find liveLog).isSome "could not create rotated server event log").trail
      (directory.unlink liveLog) = ([], .ok ()) := by
    rw [Prog.trail_reads, unlink_find]
    rfl
  simp only [createRotated, Prog.trail_bind, checked, Prog.trail_modify, List.nil_append]

/-- The writes of a rotation, none when it is refused, for any choice of the archive. -/
theorem rotation_trail (month : Except String Bytes)
    (choose : Bytes → EventDirectory → Except String Bytes) (directory : EventDirectory) :
    let rotation : Prog EventDirectory String Unit := do
      (do
        let month ← .ofExcept month
        let archive ← .reads (choose month)
        .modify (EventDirectory.link liveLog archive)
        .modify (EventDirectory.unlink liveLog))
      createRotated
    (∃ error, rotation.trail directory = ([], .error error))
      ∨ ∃ text archive, month = .ok text ∧ choose text directory = .ok archive
        ∧ rotation.trail directory = ([EventDirectory.link liveLog archive,
          EventDirectory.unlink liveLog, EventDirectory.create liveLog], .ok ()) := by
  intro rotation
  cases month with
  | error text =>
    refine .inl ⟨text, ?_⟩
    simp only [rotation, Prog.trail_bind, Prog.trail_ofExcept]
  | ok text =>
    cases free : choose text directory with
    | error reason =>
      refine .inl ⟨reason, ?_⟩
      simp only [rotation, Prog.trail_bind, Prog.trail_ofExcept, Prog.trail_reads, free,
        Prog.applyAll_nil, List.nil_append]
    | ok archive =>
      refine .inr ⟨text, archive, rfl, free, ?_⟩
      simp only [rotation, Prog.trail_bind, Prog.trail_ofExcept, Prog.trail_reads, free,
        Prog.trail_modify, Prog.applyAll_nil, Prog.applyAll_cons, createRotated_trail, List.nil_append,
        List.cons_append]

theorem rotate_trail (now : Nat) (directory : EventDirectory) :
    let rotation : Prog EventDirectory String Unit := do
      rotateEvents now
      createRotated
    (∃ error, rotation.trail directory = ([], .error error))
      ∨ ∃ month archive, archiveMonth now = .ok month ∧ freeArchive month directory = .ok archive
        ∧ rotation.trail directory = ([EventDirectory.link liveLog archive,
          EventDirectory.unlink liveLog, EventDirectory.create liveLog], .ok ()) := by
  unfold rotateEvents
  exact rotation_trail (archiveMonth now) freeArchive directory

/-- The writes of an append with any rotation. -/
theorem appendWith_trail (rotation : Prog EventDirectory String Unit) (event : StateEvent)
    (directory : EventDirectory) :
    let writes := (serializeEvent event).map (EventDirectory.append liveLog)
    let program : Prog EventDirectory String Unit := do
      .ofExcept (rejectIf (¬ ValidEvent event) "invalid server event")
      let record := serializeEvent event
      .ofExcept (rejectIf (record.length > kMaximumEventLineBytes) "server event is too large")
      .modify (EventDirectory.create liveLog)
      let size ← .gets fun directory => (directory.content liveLog).length
      .ofExcept (rejectIf (size > kMaximumEventLogBytes) "server event log is unsafe")
      .whenever (size + record.length > kMaximumEventLogBytes) rotation
      writeAll record
    let trail := program.trail directory
    (∃ changes error, (changes = [] ∨ changes = [EventDirectory.create liveLog])
        ∧ trail = (changes, .error error))
      ∨ (Writable event ∧ ¬ Full event directory
        ∧ trail = (EventDirectory.create liveLog :: writes, .ok ()))
      ∨ (Writable event ∧ Full event directory ∧
        (∀ error, rotation.trail (directory.create liveLog) = ([], .error error) →
          trail = ([EventDirectory.create liveLog], .error error)) ∧
        ∀ changes, rotation.trail (directory.create liveLog) = (changes, .ok ()) →
          trail = (EventDirectory.create liveLog :: changes ++ writes, .ok ())) := by
  intro writes program trail
  have fails : ∀ {bad : Prop} [Decidable bad] (text : String), bad →
      rejectIf bad text = .error text := fun _ holds => if_pos holds
  by_cases accepted : ValidEvent event
  case neg =>
    refine .inl ⟨[], "invalid server event", .inl rfl, ?_⟩
    simp only [trail, program, Prog.trail_bind, Prog.trail_ofExcept, fails _ accepted]
  have valid : rejectIf (¬ ValidEvent event) "invalid server event" = .ok () :=
    rejectIf_ok.mpr (not_not.mpr accepted)
  by_cases long : (serializeEvent event).length > kMaximumEventLineBytes
  case pos =>
    refine .inl ⟨[], "server event is too large", .inl rfl, ?_⟩
    simp only [trail, program, Prog.trail_bind, Prog.trail_ofExcept, valid,
      fails _ long, List.nil_append]
  have small : rejectIf ((serializeEvent event).length > kMaximumEventLineBytes)
      "server event is too large" = .ok () := rejectIf_ok.mpr long
  have written : Writable event := ⟨accepted, Nat.not_lt.mp long⟩
  by_cases huge : ((directory.create liveLog).content liveLog).length > kMaximumEventLogBytes
  case pos =>
    refine .inl ⟨_, "server event log is unsafe", .inr rfl, ?_⟩
    simp only [trail, program, Prog.trail_bind, Prog.trail_ofExcept, valid, small,
      Prog.trail_modify, Prog.trail_gets, Prog.applyAll_nil, Prog.applyAll_cons, fails _ huge,
      List.nil_append, List.append_nil]
  have fits : rejectIf (((directory.create liveLog).content liveLog).length > kMaximumEventLogBytes)
      "server event log is unsafe" = .ok () := rejectIf_ok.mpr huge
  have recorded : ∀ s, (writeAll (serializeEvent event)).trail s = (writes, .ok ()) :=
    Prog.trail_forEach_modify _ _
  by_cases full : Full event directory
  case neg =>
    refine .inr (.inl ⟨written, full, ?_⟩)
    have kept := full
    unfold Full at kept
    simp only [trail, program, Prog.trail_bind, Prog.trail_ofExcept, valid, small, fits,
      Prog.trail_modify, Prog.trail_gets, Prog.applyAll_nil, Prog.applyAll_cons, Prog.whenever, gt_iff_lt,
      if_neg kept, Prog.trail, recorded, List.nil_append, List.singleton_append]
  have turned := full
  unfold Full at turned
  refine .inr (.inr ⟨written, full, fun error rotated => ?_, fun changes rotated => ?_⟩)
  · simp only [trail, program, Prog.trail_bind, Prog.trail_ofExcept, valid, small, fits,
      Prog.trail_modify, Prog.trail_gets, Prog.applyAll_nil, Prog.applyAll_cons, Prog.whenever, gt_iff_lt,
      if_pos turned, rotated, List.nil_append, List.append_nil]
  · simp only [trail, program, Prog.trail_bind, Prog.trail_ofExcept, valid, small, fits,
      Prog.trail_modify, Prog.trail_gets, Prog.applyAll_nil, Prog.applyAll_cons, Prog.whenever, gt_iff_lt,
      if_pos turned, rotated, recorded, List.nil_append, List.cons_append]

/-- The writes of an append whose record is put on the log in place, and of one that rotates. -/
theorem append_trail (event : StateEvent) (now : Nat) (directory : EventDirectory) :
    let writes := (serializeEvent event).map (EventDirectory.append liveLog)
    let trail := (appendStateEvent event now).trail directory
    (∃ changes error, (changes = [] ∨ changes = [EventDirectory.create liveLog])
        ∧ trail = (changes, .error error))
      ∨ (Writable event ∧ ¬ Full event directory
        ∧ trail = (EventDirectory.create liveLog :: writes, .ok ()))
      ∨ (Writable event ∧ Full event directory ∧ ∃ month archive, archiveMonth now = .ok month
        ∧ freeArchive month (directory.create liveLog) = .ok archive
        ∧ trail = (EventDirectory.create liveLog :: EventDirectory.link liveLog archive
          :: EventDirectory.unlink liveLog :: EventDirectory.create liveLog :: writes, .ok ())) := by
  intro writes trail
  have unfolded : trail = (appendStateEvent event now).trail directory := rfl
  rw [appendStateEvent] at unfolded
  rcases appendWith_trail (do rotateEvents now; createRotated) event directory with
    failed | placed | ⟨written, full, refused, rotated⟩
  · exact .inl (unfolded ▸ failed)
  · exact .inr (.inl (unfolded ▸ placed))
  · rcases rotate_trail now (directory.create liveLog) with
      ⟨error, trailed⟩ | ⟨month, archive, known, free, trailed⟩
    · exact .inl ⟨_, error, .inr rfl, unfolded.trans (refused error trailed)⟩
    · exact .inr (.inr ⟨written, full, month, archive, known, free, unfolded.trans (rotated _ trailed)⟩)

theorem torn_tail {directory : EventDirectory} {live : Part} (content : live.content = directory.content liveLog)
    (clean : newline ∉ live.tail) (whole : ¬ Torn directory) : live.tail = [] := by
  by_contra filled
  obtain ⟨front, last, split⟩ := List.eq_nil_or_concat live.tail |>.resolve_left filled
  apply whole
  refine ⟨last, ?_, fun same => clean ?_⟩
  · rw [← content, Part.content, split]
    simp
  · rw [split, ← same]
    simp

/-- What an append adds to what is loaded. -/
def Adds (event : StateEvent) (outcome : Outcome) (kept : List StateEvent) : Prop :=
  (kept = [] ∧ outcome ≠ .returned) ∨ (kept = [event] ∧ outcome ≠ .threw)

/-- The logs hold the events there were and those that the outcome of an append of this one allows. -/
def Adding (event : StateEvent) (events : List StateEvent) (result : Outcome × EventDirectory) : Prop :=
  ∃ next kept, Laid result.2 next ∧ next.flatMap (·.events) = events ++ kept ∧ Adds event result.1 kept

section
variable {a : Attempt} {directory after : EventDirectory} {parts next : List Part} {event : StateEvent}
  {events : List StateEvent} {outcome : Outcome} {changes : List (EventDirectory → EventDirectory)}

theorem Laid.adding_nothing (laid : Laid after next) (same : next.flatMap (·.events) = events)
    (other : outcome ≠ .returned) : Adding event events (outcome, after) :=
  ⟨next, [], laid, by rw [same, List.append_nil], .inl ⟨rfl, other⟩⟩

theorem Laid.adding_record (laid : Laid after next) (added : next.flatMap (·.events) = events ++ [event])
    (other : outcome ≠ .threw) : Adding event events (outcome, after) :=
  ⟨next, [event], laid, added, .inr ⟨rfl, other⟩⟩

/-- What a crash leaves: the first writes of the append. -/
theorem attempt_cut {writes : Nat} {result : Except String Unit} (cut : a.cut = some writes)
    (trail : (appendStateEvent a.event a.now).trail directory = (changes, result)) :
    attempt a directory = (.cut, Prog.applyAll (changes.take writes) directory) := by
  simp only [attempt, cut, Prog.cutAfter, trail]

theorem attempt_returned (whole : a.cut = none)
    (trail : (appendStateEvent a.event a.now).trail directory = (changes, .ok ())) :
    attempt a directory = (.returned, Prog.applyAll changes directory) := by
  simp only [attempt, whole, Prog.exec_trail, trail]

theorem attempt_threw {error : String} (whole : a.cut = none)
    (trail : (appendStateEvent a.event a.now).trail directory = (changes, .error error)) :
    attempt a directory = (.threw, Prog.applyAll changes directory) := by
  simp only [attempt, whole, Prog.exec_trail, trail]

/-- Before the record the directory is as it was, or with an empty live log. -/
theorem Laid.before_record (h : Laid directory parts)
    (short : changes = [] ∨ changes = [EventDirectory.create liveLog]) :
    ∃ next, Laid (Prog.applyAll changes directory) next
      ∧ next.flatMap (·.events) = parts.flatMap (·.events) := by
  obtain rfl | rfl := short
  · exact ⟨parts, h, rfl⟩
  · obtain ⟨archives, live, created, _, same, _⟩ := h.create
    exact ⟨_, created, same⟩

theorem take_short (writes : Nat) (short : changes = [] ∨ changes = [EventDirectory.create liveLog]) :
    changes.take writes = [] ∨ changes.take writes = [EventDirectory.create liveLog] := by
  obtain rfl | rfl := short
  · exact .inl List.take_nil
  · cases writes with
    | zero => exact .inl rfl
    | succ n => exact .inr (by simp)

/-- A refused append, whether or not it is cut off. -/
theorem attempt_refused {error : String} (h : Laid directory parts)
    (short : changes = [] ∨ changes = [EventDirectory.create liveLog])
    (trail : (appendStateEvent a.event a.now).trail directory = (changes, .error error)) :
    Adding a.event (parts.flatMap (·.events)) (attempt a directory) := by
  cases cut : a.cut with
  | none =>
    obtain ⟨next, laid, same⟩ := h.before_record short
    rw [attempt_threw cut trail]
    exact laid.adding_nothing same (by decide)
  | some writes =>
    obtain ⟨next, laid, same⟩ := h.before_record (take_short writes short)
    rw [attempt_cut cut trail]
    exact laid.adding_nothing same (by decide)

/-- An append in place: a record that reaches a torn line is cut off before its end. -/
theorem attempt_appended (h : Laid directory parts) (meets : Meets a directory) (written : Writable a.event)
    (room : ¬ Full a.event directory)
    (trail : (appendStateEvent a.event a.now).trail directory
      = (EventDirectory.create liveLog :: (serializeEvent a.event).map (EventDirectory.append liveLog), .ok ())) :
    Adding a.event (parts.flatMap (·.events)) (attempt a directory) := by
  obtain ⟨archives, live, created, named, events, content, _⟩ := h.create
  have readable := created.readable live (List.mem_append_right _ List.mem_cons_self)
  have fits : live.content.length + (serializeEvent a.event).length ≤ kMaximumEventLogBytes := by
    have read := created.content_at (List.mem_append_right _ List.mem_cons_self)
    rw [← read, named]
    exact Nat.not_lt.mp room
  cases cut : a.cut with
  | none =>
    have whole : ¬ Torn directory := by
      intro torn
      obtain ⟨writes, some_cut, _⟩ := meets.whole written torn room
      rw [cut] at some_cut
      cases some_cut
    obtain ⟨next, laid, added⟩ := created.whole_record named written fits
      (torn_tail content readable.2.1 whole)
    rw [attempt_returned cut trail]
    exact laid.adding_record (events ▸ added) (by decide)
  | some writes =>
    rw [attempt_cut cut trail]
    cases writes with
    | zero => exact h.adding_nothing rfl (by decide)
    | succ count =>
      have whole : (serializeEvent a.event).length ≤ count → live.tail = [] := by
        intro complete
        apply torn_tail content readable.2.1
        intro torn
        obtain ⟨writes, some_cut, few⟩ := meets.whole written torn room
        rw [cut, Option.some.injEq] at some_cut
        omega
      obtain ⟨next, kept, laid, added, which⟩ := created.cut_record named written fits whole
      rw [events] at added
      rcases which with rfl | rfl
      · exact laid.adding_nothing (added.trans (List.append_nil _)) (by decide)
      · exact laid.adding_record added (by decide)

/-- An append that rotates: no crash falls between the link and the unlink. -/
theorem attempt_rotated {month archive : Bytes} (h : Laid directory parts) (meets : Meets a directory)
    (written : Writable a.event) (full : Full a.event directory) (known : archiveMonth a.now = .ok month)
    (free : freeArchive month (directory.create liveLog) = .ok archive)
    (trail : (appendStateEvent a.event a.now).trail directory
      = (EventDirectory.create liveLog :: EventDirectory.link liveLog archive :: EventDirectory.unlink liveLog
        :: EventDirectory.create liveLog :: (serializeEvent a.event).map (EventDirectory.append liveLog), .ok ())) :
    Adding a.event (parts.flatMap (·.events)) (attempt a directory) := by
  obtain ⟨archives, live, created, named, events, _, archived⟩ := h.create
  obtain ⟨rfl, range⟩ := archiveMonth_ok known
  obtain ⟨sequence, small, rfl, absent, earlier⟩ := freeArchive_ok free
  have rotated := created.rotate named range small (created.find_none.mp absent)
    (fun number less => by
      by_contra missing
      exact earlier number less (created.find_none.mpr missing))
    (fun other number member => by
      obtain ⟨archive, which, name⟩ := List.mem_map.mp member
      exact meets.forward written full other number (name ▸ archived archive which))
  obtain ⟨older, fresh, renewed, fresh_named, fresh_events, fresh_content, _⟩ := rotated.create
  have moved : (archives ++ [{ live with name := archiveName (monthText (monthNumber a.now)) sequence }]).flatMap
      Part.events = parts.flatMap Part.events := by
    rw [← events]
    simp
  have same := fresh_events.trans moved
  have empty : fresh.content = [] := by
    rw [fresh_content, EventDirectory.content, unlink_find]
    rfl
  have tail : fresh.tail = [] := (List.append_eq_nil_iff.mp empty).2
  have fits : fresh.content.length + (serializeEvent a.event).length ≤ kMaximumEventLogBytes := by
    have line : kMaximumEventLineBytes ≤ kMaximumEventLogBytes := by decide
    rw [empty]
    exact (Nat.zero_add _).symm ▸ written.2.trans line
  cases cut : a.cut with
  | none =>
    obtain ⟨next, laid, added⟩ := renewed.whole_record fresh_named written fits tail
    rw [attempt_returned cut trail]
    exact laid.adding_record (same ▸ added) (by decide)
  | some writes =>
    rw [attempt_cut cut trail]
    match writes, cut with
    | 0, _ => exact h.adding_nothing rfl (by decide)
    | 1, _ => exact created.adding_nothing events (by decide)
    | 2, cut => exact absurd cut (meets.linked written full)
    | 3, _ => exact rotated.adding_nothing moved (by decide)
    | count + 4, _ =>
      obtain ⟨next, kept, laid, added, which⟩ :=
        renewed.cut_record fresh_named written fits (fun _ : _ ≤ count => tail)
      rw [same] at added
      rcases which with rfl | rfl
      · exact laid.adding_nothing (added.trans (List.append_nil _)) (by decide)
      · exact laid.adding_record added (by decide)

/-- An append that meets the condition keeps every log and adds at most its own event. -/
theorem attempt_laid (h : Laid directory parts) (meets : Meets a directory) :
    ∃ next kept, Laid (attempt a directory).2 next
      ∧ next.flatMap (·.events) = parts.flatMap (·.events) ++ kept
      ∧ Adds a.event (attempt a directory).1 kept := by
  rcases append_trail a.event a.now directory with
    ⟨changes, error, short, trail⟩ | ⟨written, room, trail⟩
    | ⟨written, full, month, archive, known, free, trail⟩
  · exact attempt_refused h short trail
  · exact attempt_appended h meets written room trail
  · exact attempt_rotated h meets written full known free trail

end

/-- A run that meets the condition adds to what is loaded the events of its history. -/
theorem run_laid {attempts : List Attempt} {directory : EventDirectory} {parts : List Part}
    (h : Laid directory parts) (meets : RunMeets directory attempts) :
    ∃ next kept, Laid (runFrom directory attempts).2 next
      ∧ next.flatMap (·.events) = parts.flatMap (·.events) ++ kept
      ∧ Explains (runFrom directory attempts).1 kept := by
  induction attempts generalizing directory parts with
  | nil => exact ⟨parts, [], h, by simp, .nil⟩
  | cons a rest ih =>
    obtain ⟨middle, first, laid, added, adds⟩ := attempt_laid h meets.1
    obtain ⟨next, later, last, whole, explained⟩ := ih laid meets.2
    refine ⟨next, first ++ later, last, by rw [whole, added, List.append_assoc], ?_⟩
    show Explains ((a.event, (attempt a directory).1) :: _) _
    rcases adds with ⟨rfl, notReturned⟩ | ⟨rfl, notThrown⟩
    · cases outcome : (attempt a directory).1 with
      | returned => exact absurd outcome notReturned
      | threw => exact .threw explained
      | cut => exact .lost explained
    · cases outcome : (attempt a directory).1 with
      | returned => exact .returned explained
      | threw => exact absurd outcome notThrown
      | cut => exact .kept explained

/-- Crash safety of every run that meets the condition. -/
theorem crash_safe {attempts : List Attempt} (meets : RunMeets emptyDirectory attempts) :
    CrashSafe attempts := by
  have start : Laid emptyDirectory [] := by
    refine ⟨rfl, rfl, ?_, .nil, ?_⟩ <;> simp
  obtain ⟨parts, events, laid, all, explained⟩ := run_laid start meets
  exact ⟨events, by rw [laid.loads, all]; rfl, explained⟩

def push (epoch : UInt64) : StateEvent :=
  { epoch_seconds := epoch, kind := ascii "push", project_name := ascii "p", client_id := ascii "c" }

instance (event : StateEvent) (directory : EventDirectory) : Decidable (Full event directory) :=
  inferInstanceAs (Decidable (_ < _))

/-- Two appends that return, one that dies before its first write, and a torn one. -/
def restartedRun : List Attempt :=
  [⟨push 1700, 5, none⟩, ⟨push 1750, 5, some 0⟩, ⟨push 1801, 5, none⟩, ⟨push 1900, 5, some 7⟩]

theorem crash_safe_restarted : RunMeets emptyDirectory restartedRun ∧ CrashSafe restartedRun
    ∧ (loadEvents (runFrom emptyDirectory restartedRun).2).toOption = some [push 1700, push 1801] := by
  have ended : ∀ {a : Attempt} {directory : EventDirectory}, ¬ Full a.event directory →
      (directory.content liveLog).getLast?.all (· == newline) = true → Meets a directory := by
    intro a directory fits line
    refine ⟨?_, fun _ full => absurd full fits, fun _ full => absurd full fits⟩
    rintro _ ⟨byte, last, torn⟩
    rw [last] at line
    exact absurd (eq_of_beq line) torn
  have meets : RunMeets emptyDirectory restartedRun :=
    ⟨ended (by decide +kernel) (by decide), ended (by decide +kernel) (by decide +kernel),
      ended (by decide +kernel) (by decide +kernel), ended (by decide +kernel) (by decide +kernel), trivial⟩
  exact ⟨meets, crash_safe meets, by decide +kernel⟩

/-- A torn append and a returned one. -/
def tornRun : List Attempt := [⟨push 1700, 5, some 7⟩, ⟨push 1801, 5, none⟩]

/-- A record met by a torn line cannot be read back. -/
theorem not_crash_safe_torn : ¬ CrashSafe tornRun := by
  rintro ⟨events, loaded, _⟩
  have failed : (loadEvents (runFrom emptyDirectory tornRun).2).toBool = false := by decide +kernel
  rw [loaded] at failed
  cases failed

end CkGit.Events
