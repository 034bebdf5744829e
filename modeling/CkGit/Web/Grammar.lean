import Mathlib.Data.List.Induction
import CkGit.Base.Grammar
import CkGit.Web.Positions

/-!
The grammar of the requests both servers read, stated apart from how they are
read: a method, a target and header lines, as they stand in the text. The
parser accepts the texts of the well formed readings and no others.
-/
namespace CkGit.Web
open CkGit.Base CkGit.Ci

/-- A header line: a name, a colon and what follows it. -/
structure Field where
  name : Bytes
  text : Bytes
  deriving DecidableEq

def Field.line (field : Field) : Bytes := field.name ++ colon :: field.text

def Field.value (field : Field) : Bytes := trimOptionalWhitespace field.text

/-- In letters of either case. -/
def Field.named (field : Field) (name : String) : Bool := equalsIgnoreCase field.name (ascii name)

def valuesOf (fields : List Field) (name : String) : List Bytes := (fields.filter (·.named name)).map Field.value

def HttpMethod.text : HttpMethod → Bytes
  | .get => ascii "GET"
  | .head => ascii "HEAD"
  | .post => ascii "POST"

/-- A request as it is written. -/
structure Reading where
  method : HttpMethod
  target : Bytes
  fields : List Field
  deriving DecidableEq

namespace Reading

def requestLine (reading : Reading) : Bytes :=
  reading.method.text ++ blank :: (reading.target ++ blank :: ascii "HTTP/1.1")

def lines (reading : Reading) : List Bytes := reading.requestLine :: reading.fields.map Field.line

def text (reading : Reading) : Bytes := requestText reading.lines

def values (reading : Reading) (name : String) : List Bytes := valuesOf reading.fields name

/-- What is made of it; the last one counts where Origin or Last-Event-ID repeats. -/
def request (reading : Reading) : HttpRequest where
  method := reading.method
  target := pathOf reading.target
  origin := (reading.values "origin").getLastD []
  last_event_id := (reading.values "last-event-id").getLastD []
  host := (reading.values "host").headD []

end Reading

def IsDecimalZero (value : Bytes) : Prop := value ≠ [] ∧ ∀ digit ∈ value, digit = '0'.toUInt8

instance (value : Bytes) : Decidable (IsDecimalZero value) := inferInstanceAs (Decidable (_ ∧ _))

structure Reading.WellFormed (reading : Reading) : Prop where
  fits : reading.text.length ≤ kMaximumRequestBytes
  plain : ∀ line ∈ reading.lines, isLineText line = true
  short : reading.requestLine.length ≤ kMaximumRequestLineBytes
  one_word : blank ∉ reading.target
  safe : isSafeTarget (pathOf reading.target) = true
  some_field : 1 ≤ reading.fields.length
  few : reading.fields.length ≤ kMaximumHeaderCount
  names : ∀ field ∈ reading.fields, field.name ≠ [] ∧ field.name.all isTokenCharacter = true
  host : ∃ value, reading.values "host" = [value] ∧ value ≠ []
  encoding : reading.values "transfer-encoding" = []
  content : reading.values "content-length" = []
    ∨ ∃ value, reading.values "content-length" = [value] ∧ IsDecimalZero value

variable {fields : List Field} {field : Field} {headers : Headers}

theorem foldl_zero {digits : Bytes} {start : Nat} (decimal : ∀ digit ∈ digits, isDigit digit = true) :
    digits.foldl (fun value byte => 10 * value + (byte.toNat - '0'.toNat)) start = 0
      ↔ start = 0 ∧ ∀ digit ∈ digits, digit = '0'.toUInt8 := by
  induction digits generalizing start with
  | nil => simp
  | cons digit rest ih =>
    have zero : digit.toNat - '0'.toNat = 0 ↔ digit = '0'.toUInt8 := by
      have range := decimal digit (.head _)
      simp only [isDigit, Bool.and_eq_true, decide_eq_true_eq, UInt8.le_iff_toNat_le] at range
      have low : ('0'.toUInt8).toNat = 48 := rfl
      have char : '0'.toNat = 48 := rfl
      rw [← UInt8.toNat_inj]
      omega
    rw [List.foldl_cons, ih fun other member => decimal other (.tail _ member)]
    simp only [List.mem_cons, forall_eq_or_imp, ← zero]
    constructor
    · rintro ⟨sum, others⟩
      exact ⟨by omega, by omega, others⟩
    · rintro ⟨none_before, none_here, others⟩
      exact ⟨by omega, others⟩

theorem parseDecimal_zero {value : Bytes} {limit : Nat} : parseDecimal limit value = some 0 ↔ IsDecimalZero value := by
  unfold parseDecimal
  constructor
  · intro read
    split at read
    · next good =>
      have digits := List.all_eq_true.mp good.2.1
      exact ⟨good.1, ((foldl_zero digits).mp (Option.some.inj read)).2⟩
    · cases read
  · rintro ⟨filled, zeros⟩
    have digits : ∀ digit ∈ value, isDigit digit = true := fun digit member => by
      rw [zeros digit member]
      decide
    have zero : digitsValue value = 0 := (foldl_zero digits).mpr ⟨rfl, zeros⟩
    rw [if_pos ⟨filled, List.all_eq_true.mpr digits, zero ▸ Nat.zero_le limit⟩, zero]

theorem token_free {name : Bytes} (token : name.all isTokenCharacter = true) : colon ∉ name :=
  fun member => absurd (List.all_eq_true.mp token colon member) (by decide)

theorem split_line (token : field.name.all isTokenCharacter = true) :
    splitFirst colon field.line = (field.name, some field.text) := splitFirst_append (token_free token)

theorem splitFirst_whole {sep : UInt8} {text front back : Bytes} (found : splitFirst sep text = (front, some back)) :
    text = front ++ sep :: back := by
  by_cases member : sep ∈ text
  · obtain ⟨before, after, rfl, free⟩ := List.eq_append_cons_of_mem member
    rw [splitFirst_append free] at found
    obtain ⟨rfl, same⟩ := Prod.mk.inj found
    cases same
    rfl
  · rw [splitFirst_none member] at found
    cases found

theorem trim_subset {text : Bytes} {byte : UInt8} (member : byte ∈ trimOptionalWhitespace text) : byte ∈ text := by
  unfold trimOptionalWhitespace at member
  rw [List.mem_reverse] at member
  exact (List.dropWhile_suffix _).subset (List.mem_reverse.mp ((List.dropWhile_suffix _).subset member))

theorem value_safe (plain : isLineText field.line = true) : isSafeHeaderValue field.value = true := by
  refine List.all_eq_true.mpr fun byte member => ?_
  have inside : byte ∈ field.line := List.mem_append_right _ (.tail _ (trim_subset member))
  have good := List.all_eq_true.mp plain byte inside
  revert good
  cases byte == tab <;> cases decide (0x20 ≤ byte) <;> simp

theorem readHeader_line (plain : isLineText field.line = true) (filled : field.name ≠ [])
    (token : field.name.all isTokenCharacter = true) :
    readHeader headers field.line = Positions.takeHeader headers field.name field.value := by
  unfold readHeader
  rw [split_line token]
  have good : ¬(field.name = [] ∨ ¬field.name.all isTokenCharacter = true
      ∨ ¬isSafeHeaderValue (trimOptionalWhitespace field.text) = true) := by
    rintro (none | other | unsafe_value)
    exacts [filled none, other token, unsafe_value (value_safe plain)]
  exact if_neg good

/-- A line that is read is a name and what follows. -/
theorem readHeader_some {line : Bytes} {after : Headers} (read : readHeader headers line = some after) :
    ∃ field : Field, line = field.line ∧ field.name ≠ [] ∧ field.name.all isTokenCharacter = true := by
  unfold readHeader at read
  split at read
  · cases read
  · next name rest found =>
    dsimp only at read
    split at read
    · cases read
    · next good =>
      simp only [not_or, not_not] at good
      exact ⟨⟨name, rest⟩, splitFirst_whole found, good.1, good.2.1⟩

/-- What the lines so far have said. -/
def told (fields : List Field) : Headers where
  host := (valuesOf fields "host").head?
  content_length_seen := !(valuesOf fields "content-length").isEmpty
  origin := (valuesOf fields "origin").getLastD []
  last_event_id := (valuesOf fields "last-event-id").getLastD []

/-- No value, or a single one of the kind. -/
def AtMostOne (P : Bytes → Prop) (values : List Bytes) : Prop := values = [] ∨ ∃ value, values = [value] ∧ P value

/-- Lines that the loop lets pass. -/
@[mk_iff]
structure Passing (fields : List Field) : Prop where
  host : AtMostOne (· ≠ []) (valuesOf fields "host")
  encoding : valuesOf fields "transfer-encoding" = []
  content : AtMostOne IsDecimalZero (valuesOf fields "content-length")

theorem atMostOne_concat {P : Bytes → Prop} {values : List Bytes} {value : Bytes} :
    AtMostOne P (values ++ [value]) ↔ values = [] ∧ P value := by
  constructor
  · rintro (none | ⟨other, single, good⟩)
    · exact absurd none (by simp)
    · cases values with
      | nil =>
        cases single
        exact ⟨rfl, good⟩
      | cons first rest => exact absurd (congrArg List.length single) (by simp)
  · rintro ⟨rfl, good⟩
    exact .inr ⟨value, rfl, good⟩

theorem valuesOf_concat (fields : List Field) (field : Field) (name : String) :
    valuesOf (fields ++ [field]) name = valuesOf fields name ++ if field.named name then [field.value] else [] := by
  unfold valuesOf
  rw [List.filter_append, List.map_append]
  cases hit : field.named name <;> simp [hit]

/-- Of two names that differ in more than their case a line has one. -/
theorem named_other {name other : String} (here : field.named name = true)
    (differ : (ascii name).map toLower ≠ (ascii other).map toLower) : field.named other = false := by
  rw [Field.named, equalsIgnoreCase, beq_iff_eq] at here
  rw [Field.named, equalsIgnoreCase, beq_eq_false_iff_ne, here]
  exact differ

theorem Passing.front (passing : Passing (fields ++ [field])) : Passing fields := by
  obtain ⟨host, encoding, content⟩ := passing
  rw [valuesOf_concat] at host encoding content
  have kept : ∀ {P : Bytes → Prop} {values : List Bytes} {hit : Bool},
      AtMostOne P (values ++ if hit then [field.value] else []) → AtMostOne P values := by
    intro P values hit single
    cases hit with
    | false => simpa using single
    | true => exact .inl (atMostOne_concat.mp single).1
  exact ⟨kept host, (List.append_eq_nil_iff.mp encoding).1, kept content⟩

theorem takeHeader_named : Positions.takeHeader headers field.name field.value =
    if field.named "host" then
      if headers.host.isSome ∨ field.value = [] then none else some { headers with host := some field.value }
    else if field.named "transfer-encoding" then none
    else if field.named "content-length" then
      if headers.content_length_seen ∨ parseDecimal (2 ^ 64 - 1) field.value ≠ some 0 then none
      else some { headers with content_length_seen := true }
    else if field.named "origin" then some { headers with origin := field.value }
    else if field.named "last-event-id" then some { headers with last_event_id := field.value }
    else some headers := rfl

/-- One more line. -/
theorem takeHeader_told (passing : Passing fields) :
    Positions.takeHeader (told fields) field.name field.value = some headers
      ↔ Passing (fields ++ [field]) ∧ headers = told (fields ++ [field]) := by
  obtain ⟨host, encoding, content⟩ := passing
  rw [takeHeader_named, passing_iff]
  unfold told
  simp only [valuesOf_concat, encoding, List.nil_append]
  cases is_host : field.named "host" with
  | true =>
    have not_encoding := named_other is_host (by decide : _ ≠ (ascii "transfer-encoding").map toLower)
    have not_content := named_other is_host (by decide : _ ≠ (ascii "content-length").map toLower)
    have not_origin := named_other is_host (by decide : _ ≠ (ascii "origin").map toLower)
    have not_event := named_other is_host (by decide : _ ≠ (ascii "last-event-id").map toLower)
    simp only [not_encoding, not_content, not_origin, not_event, if_true, Bool.false_eq_true, if_false,
      List.append_nil, atMostOne_concat, content, and_true]
    cases hosts : valuesOf fields "host" with
    | nil => by_cases filled : field.value = [] <;> simp [filled, eq_comm]
    | cons first others => simp
  | false =>
    simp only [Bool.false_eq_true, if_false, List.append_nil, host, true_and]
    cases is_encoding : field.named "transfer-encoding" with
    | true => simp
    | false =>
      cases is_content : field.named "content-length" with
      | true =>
        have not_origin := named_other is_content (by decide : _ ≠ (ascii "origin").map toLower)
        have not_event := named_other is_content (by decide : _ ≠ (ascii "last-event-id").map toLower)
        simp only [not_origin, not_event, if_true, Bool.false_eq_true, if_false, List.append_nil, atMostOne_concat,
          ne_eq, parseDecimal_zero, true_and]
        cases lengths : valuesOf fields "content-length" with
        | nil => by_cases zero : IsDecimalZero field.value <;> simp [zero, eq_comm]
        | cons first others => simp
      | false =>
        simp only [Bool.false_eq_true, if_false, List.append_nil, content, true_and]
        cases is_origin : field.named "origin" with
        | true =>
          have not_event := named_other is_origin (by decide : _ ≠ (ascii "last-event-id").map toLower)
          simp [not_event, eq_comm]
        | false => cases is_event : field.named "last-event-id" <;> simp [eq_comm]

/-- All the lines. -/
theorem readHeader_run (plain : ∀ field ∈ fields, isLineText field.line = true)
    (names : ∀ field ∈ fields, field.name ≠ [] ∧ field.name.all isTokenCharacter = true) :
    (fields.map Field.line).foldlM readHeader {} = some headers ↔ Passing fields ∧ headers = told fields := by
  induction fields using List.reverseRecOn generalizing headers with
  | nil =>
    have passing : Passing [] := ⟨.inl rfl, rfl, .inl rfl⟩
    have start : told [] = {} := rfl
    rw [start]
    simp [passing, eq_comm]
  | append_singleton fields field ih =>
    have before := fun first : Headers => @ih first (fun other member => plain other (by simp [member]))
      fun other member => names other (by simp [member])
    obtain ⟨filled, token⟩ := names field (by simp)
    rw [List.map_append, List.foldlM_append]
    simp only [List.map_cons, List.map_nil, List.foldlM_cons, List.foldlM_nil, bind_pure, Option.bind_eq_bind,
      Option.bind_eq_some_iff, readHeader_line (plain field (by simp)) filled token, before]
    constructor
    · rintro ⟨_, ⟨passing, rfl⟩, read⟩
      exact (takeHeader_told passing).mp read
    · rintro ⟨passing, rfl⟩
      exact ⟨_, ⟨passing.front, rfl⟩, (takeHeader_told passing.front).mpr ⟨passing, rfl⟩⟩

theorem lines_of_fields {lines : List Bytes} {start : Headers} (read : lines.foldlM readHeader start = some headers) :
    ∃ fields : List Field, lines = fields.map Field.line
      ∧ ∀ field ∈ fields, field.name ≠ [] ∧ field.name.all isTokenCharacter = true := by
  induction lines generalizing start with
  | nil => exact ⟨[], rfl, nofun⟩
  | cons line rest ih =>
    obtain ⟨after, first, later⟩ := Option.bind_eq_some_iff.mp read
    obtain ⟨field, rfl, named⟩ := readHeader_some first
    obtain ⟨fields, rfl, others⟩ := ih later
    refine ⟨field :: fields, rfl, ?_⟩
    rintro other (_ | ⟨_, member⟩)
    exacts [named, others other member]

theorem method_free (method : HttpMethod) : blank ∉ method.text := by cases method <;> decide

theorem httpMethod_eq {text : Bytes} {method : HttpMethod} : httpMethod text = some method ↔ text = method.text := by
  unfold httpMethod
  constructor
  · intro found
    split at found
    · next same =>
      cases found
      exact same
    · split at found
      · next same =>
        cases found
        exact same
      · split at found
        · next same =>
          cases found
          exact same
        · cases found
  · rintro rfl
    cases method <;> decide

theorem Reading.splitOn_requestLine {reading : Reading} (one_word : blank ∉ reading.target) :
    reading.requestLine.splitOn blank = [reading.method.text, reading.target, ascii "HTTP/1.1"] := by
  rw [Reading.requestLine, List.splitOn_append_cons_self_of_not_mem (method_free _),
    List.splitOn_append_cons_self_of_not_mem one_word]
  rfl

theorem readRequestLine_reading {reading : Reading} (one_word : blank ∉ reading.target)
    (short : reading.requestLine.length ≤ kMaximumRequestLineBytes) (safe : isSafeTarget (pathOf reading.target) = true) :
    readRequestLine reading.requestLine = some (reading.method, pathOf reading.target) := by
  have good : ¬(reading.requestLine.length > kMaximumRequestLineBytes ∨ ascii "HTTP/1.1" ≠ ascii "HTTP/1.1"
      ∨ ¬isSafeTarget (pathOf reading.target) = true) := by
    rintro (long | other | unsafe_target)
    exacts [Nat.not_lt.mpr short long, other rfl, unsafe_target safe]
  unfold readRequestLine
  rw [Reading.splitOn_requestLine one_word]
  dsimp only
  rw [if_neg good, httpMethod_eq.mpr rfl]
  rfl

theorem readRequestLine_some {line : Bytes} {method : HttpMethod} {path : Bytes}
    (read : readRequestLine line = some (method, path)) :
    ∃ target, line = method.text ++ blank :: (target ++ blank :: ascii "HTTP/1.1") ∧ blank ∉ target
      ∧ line.length ≤ kMaximumRequestLineBytes ∧ isSafeTarget (pathOf target) = true ∧ path = pathOf target := by
  unfold readRequestLine at read
  split at read
  · next method_text target version pieces =>
    split at read
    · cases read
    · next good =>
      simp only [not_or, not_not, Nat.not_lt] at good
      obtain ⟨short, rfl, safe⟩ := good
      obtain ⟨_, known, same⟩ := Option.map_eq_some_iff.mp read
      obtain ⟨rfl, rfl⟩ := Prod.mk.inj same
      rw [httpMethod_eq] at known
      have whole : [blank].intercalate (line.splitOn blank) = line := List.intercalate_splitOn blank
      rw [pieces, known] at whole
      have free := Grammar.splitOn_avoids (show target ∈ line.splitOn blank by rw [pieces]; simp)
      refine ⟨target, ?_, free, short, safe, rfl⟩
      rw [← whole]
      simp [List.intercalate]
  · cases read

namespace Reading
variable {reading other : Reading} {text : Bytes}

theorem line_filled (field : Field) : field.line ≠ [] := by simp [Field.line]

/-- A text has one well formed reading. -/
theorem unique (well : reading.WellFormed) (also : other.WellFormed) (same : reading.text = other.text) :
    reading = other := by
  have pieces := crlfLines_text well.plain
  have lines : reading.lines = other.lines := by
    have others := crlfLines_text also.plain
    rw [show requestText other.lines = requestText reading.lines from same.symm, pieces] at others
    exact List.append_cancel_right others
  obtain ⟨first, rest⟩ := List.cons.inj lines
  have words := splitOn_requestLine well.one_word
  rw [first, splitOn_requestLine also.one_word] at words
  obtain ⟨method, target, -⟩ : other.method.text = reading.method.text ∧ other.target = reading.target ∧ True := by
    simpa using words
  have methods : reading.method = other.method := by
    have known := httpMethod_eq.mpr method
    rw [httpMethod_eq.mpr rfl] at known
    exact (Option.some.inj known).symm
  have fields : reading.fields = other.fields := by
    have parts : ∀ fields : List Field, (∀ field ∈ fields, field.name ≠ [] ∧ field.name.all isTokenCharacter = true) →
        (fields.map Field.line).map (splitFirst colon) = fields.map fun field => (field.name, some field.text) := by
      intro fields names
      rw [List.map_map]
      exact List.map_congr_left fun field member => split_line (names field member).2
    have both := congrArg (List.map (splitFirst colon)) rest
    rw [parts _ well.names, parts _ also.names] at both
    refine List.map_injective_iff.mpr ?_ both
    rintro ⟨_, _⟩ ⟨_, _⟩ equal
    cases equal
    rfl
  cases reading
  cases other
  cases methods
  cases target
  cases fields
  rfl

/-- No valid request is refused. -/
theorem parse_text (well : reading.WellFormed) : parseReadOnlyHttpRequest reading.text = some reading.request := by
  have plain : ∀ field ∈ reading.fields, isLineText field.line = true := fun field member =>
    well.plain _ (.tail _ (List.mem_map_of_mem member))
  have headers : ∀ header ∈ reading.fields.map Field.line, isLineText header = true ∧ header ≠ [] := by
    intro header member
    obtain ⟨field, inside, rfl⟩ := List.mem_map.mp member
    exact ⟨plain field inside, line_filled field⟩
  have passing : Passing reading.fields := by
    obtain ⟨value, single, filled⟩ := well.host
    exact ⟨.inr ⟨value, single, filled⟩, well.encoding, well.content⟩
  have read : readHeaders (reading.fields.map Field.line) = some (told reading.fields) := by
    rw [readHeaders, List.length_map, if_neg (Nat.not_lt.mpr well.few)]
    exact (readHeader_run plain well.names).mpr ⟨passing, rfl⟩
  obtain ⟨value, single, -⟩ := well.host
  have host : (told reading.fields).host = some value := by
    rw [told, show valuesOf reading.fields "host" = [value] from single]
    rfl
  have first : reading.request.host = value := by
    rw [request, single]
    rfl
  rw [text, lines, parse_requestText (well.plain _ (.head _)) headers well.fits,
    readRequestLine_reading well.one_word well.short well.safe, read]
  show (told reading.fields).host.bind _ = _
  rw [host, ← first]
  rfl

/-- What is accepted is well formed. -/
theorem of_parse {made : HttpRequest} (accepted : parseReadOnlyHttpRequest text = some made) :
    ∃ reading : Reading, reading.WellFormed ∧ reading.text = text ∧ reading.request = made := by
  have framed : 4 ≤ text.length ∧ text.length ≤ kMaximumRequestBytes
      ∧ findPiece (crlf ++ crlf) text = some (text.length - 4) ∧ cleanBytes none text = true := by
    by_contra other
    rw [Positions.parse_unframed other] at accepted
    cases accepted
  obtain ⟨long, fits, ends, clean⟩ := framed
  obtain ⟨line, headers, rfl, first, plain⟩ := framed_lines long ends clean
  rw [parse_requestText first plain fits] at accepted
  obtain ⟨⟨method, path⟩, request_line, accepted⟩ := Option.bind_eq_some_iff.mp accepted
  obtain ⟨fields, read, accepted⟩ := Option.bind_eq_some_iff.mp accepted
  obtain ⟨host, has_host, made_of⟩ := Option.bind_eq_some_iff.mp accepted
  obtain ⟨target, rfl, one_word, short, safe, rfl⟩ := readRequestLine_some request_line
  rw [readHeaders] at read
  split at read
  · cases read
  · next few =>
    obtain ⟨fields, rfl, names⟩ := lines_of_fields read
    rw [List.length_map, Nat.not_lt] at few
    have field_plain : ∀ field ∈ fields, isLineText field.line = true := fun field member =>
      (plain _ (List.mem_map_of_mem member)).1
    obtain ⟨passing, rfl⟩ := (readHeader_run field_plain names).mp read
    obtain ⟨value, single, filled⟩ : ∃ value, valuesOf fields "host" = [value] ∧ value ≠ [] := by
      rcases passing.host with none | some_host
      · rw [told, none] at has_host
        cases has_host
      · exact some_host
    have same : host = value := by
      rw [told, single] at has_host
      exact (Option.some.inj has_host).symm
    refine ⟨⟨method, target, fields⟩, ⟨fits, ?_, short, one_word, safe, ?_, few, names, ⟨value, single, filled⟩,
      passing.encoding, passing.content⟩, rfl, ?_⟩
    · rintro other (_ | ⟨_, member⟩)
      exacts [first, (plain other member).1]
    · cases fields with
      | nil => cases single
      | cons field rest => exact Nat.le_add_left 1 _
    · cases made_of
      rw [request, same]
      simp [values, single, told]

end Reading

/-- The parser accepts exactly its grammar, each text in one reading, from positions that are all
in range; nothing can follow a request that is accepted. -/
theorem accepts_its_grammar :
    (∀ text : Bytes, ∃ answer, Positions.parseReadOnlyHttpRequest text = .ok answer)
    ∧ (∀ (text : Bytes) (made : HttpRequest), Positions.parseReadOnlyHttpRequest text = .ok (some made)
      ↔ ∃ reading : Reading, reading.WellFormed ∧ reading.text = text ∧ reading.request = made)
    ∧ (∀ reading other : Reading, reading.WellFormed → other.WellFormed → reading.text = other.text → reading = other)
    ∧ ∀ (text more : Bytes) (made : HttpRequest), Positions.parseReadOnlyHttpRequest text = .ok (some made) →
      more ≠ [] → Positions.parseReadOnlyHttpRequest (text ++ more) = .ok none := by
  refine ⟨fun text => ⟨_, Positions.parse_eq⟩, ?_, fun reading other => Reading.unique, ?_⟩
  · intro text made
    rw [Positions.parse_eq, Except.ok.injEq]
    constructor
    · exact Reading.of_parse
    · rintro ⟨reading, well, rfl, rfl⟩
      exact Reading.parse_text well
  · intro text more made accepted filled
    rw [Positions.parse_eq, Except.ok.injEq] at accepted ⊢
    refine Positions.parse_unframed fun framed => ?_
    have whole : findPiece (crlf ++ crlf) text = some (text.length - 4) := by
      by_contra other
      rw [Positions.parse_unframed fun framed => other framed.2.2.1] at accepted
      cases accepted
    have early := findPiece_append whole more
    have late := framed.2.2.1
    have some_more := List.length_pos_iff.mpr filled
    have long : 4 ≤ text.length := by
      by_contra short
      rw [Positions.parse_unframed fun framed => short framed.1] at accepted
      cases accepted
    have place := Option.some.inj (early.symm.trans late)
    rw [List.length_append] at place
    omega

example : Positions.parseReadOnlyHttpRequest (ascii "HEAD /?v=1 HTTP/1.1\r\nhost: a\r\n\r\n")
    = .ok (some ⟨.head, ascii "/", [], [], ascii "a"⟩) := by decide +kernel

end CkGit.Web
