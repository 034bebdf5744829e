import CkGit.Web.Lines

/-!
parseReadOnlyHttpRequest with the positions it computes
(src/common/http_request.cpp): an index or a substr beyond the end of its
string, and a difference below zero, are errors. No text leads to one.
-/
namespace CkGit.Web.Positions
open CkGit.Base CkGit.Ci

inductive Fault where
  | outOfRange
  | underflow
  deriving DecidableEq, Repr

abbrev Checked := Except Fault

def byteAt (text : Bytes) (index : Nat) : Checked UInt8 :=
  match text[index]? with
  | some byte => pure byte
  | none => throw .outOfRange

def substr (text : Bytes) (position count : Nat) : Checked Bytes :=
  if position ≤ text.length then pure ((text.drop position).take count) else throw .outOfRange

def substrFrom (text : Bytes) (position : Nat) : Checked Bytes :=
  if position ≤ text.length then pure (text.drop position) else throw .outOfRange

def minus (left right : Nat) : Checked Nat := if right ≤ left then pure (left - right) else throw .underflow

/-- One turn of the byte scan. -/
def isCleanAt (request : Bytes) (index : Nat) : Checked Bool := do
  let character ← byteAt request index
  if character = carriage then
    if index + 1 ≥ request.length then return false
    return (← byteAt request (index + 1)) == newline
  else if character = newline then
    if index = 0 then return false
    return (← byteAt request (index - 1)) == carriage
  else return !(character < 0x20 && character != tab) && character != 0x7f

def isClean (request : Bytes) : Checked Bool := (List.range request.length).allM (isCleanAt request)

def withoutQuery (target : Bytes) : Checked Bytes :=
  match findFrom isQueryOrFragment target 0 with
  | some query_or_fragment => substr target 0 query_or_fragment
  | none => pure target

def readRequestLine (request_line : Bytes) : Checked (Option (HttpMethod × Bytes)) :=
  match findFrom (· == blank) request_line 0 with
  | none => return none
  | some first_space =>
    match findFrom (· == blank) request_line (first_space + 1) with
    | none => return none
    | some second_space => do
      if (findFrom (· == blank) request_line (second_space + 1)).isSome then return none
      if (← substrFrom request_line (second_space + 1)) ≠ ascii "HTTP/1.1" then return none
      let method_text ← substr request_line 0 first_space
      let target ← substr request_line (first_space + 1) (← minus (← minus second_space first_space) 1)
      let target ← withoutQuery target
      if !isSafeTarget target then return none
      return (httpMethod method_text).map (·, target)

def takeHeader (headers : Headers) (name value : Bytes) : Option Headers :=
  if equalsIgnoreCase name (ascii "host") then
    if headers.host.isSome ∨ value = [] then none else some { headers with host := some value }
  else if equalsIgnoreCase name (ascii "transfer-encoding") then none
  else if equalsIgnoreCase name (ascii "content-length") then
    if headers.content_length_seen ∨ parseDecimal (2 ^ 64 - 1) value ≠ some 0 then none
    else some { headers with content_length_seen := true }
  else if equalsIgnoreCase name (ascii "origin") then some { headers with origin := value }
  else if equalsIgnoreCase name (ascii "last-event-id") then some { headers with last_event_id := value }
  else some headers

def readHeader (headers : Headers) (line : Bytes) : Checked (Option Headers) :=
  match findFrom (· == colon) line 0 with
  | none => return none
  | some colon_at => do
    if colon_at = 0 then return none
    let name ← substr line 0 colon_at
    if !name.all isTokenCharacter then return none
    let value := trimOptionalWhitespace (← substrFrom line (colon_at + 1))
    if !isSafeHeaderValue value then return none
    return takeHeader headers name value

/-- One turn of the header loop: where the next line is, and what the headers say then. -/
def headerTurn (request : Bytes) (position : Nat) (headers : Headers) : Checked (Option (Nat × Headers)) :=
  match findPieceFrom crlf request position with
  | none => return none
  | some line_end => do
    if line_end = position then return none
    let line ← substr request position (← minus line_end position)
    return (← readHeader headers line).map (line_end + 2, ·)

/-- So many more lines are allowed; a turn refuses what it may not read, too. -/
def readHeaders (request : Bytes) (remaining position : Nat) (headers : Headers) : Checked (Option Headers) := do
  if (← minus request.length 2) ≤ position then return some headers
  match remaining with
  | 0 => return none
  | remaining + 1 =>
    match ← headerTurn request position headers with
    | none => return none
    | some (position, headers) => readHeaders request remaining position headers

/-- From the end of the request line on. -/
def readRequest (request : Bytes) (request_line_end : Nat) : Checked (Option HttpRequest) := do
  if request_line_end > kMaximumRequestLineBytes then return none
  match ← readRequestLine (← substr request 0 request_line_end) with
  | none => return none
  | some (method, target) =>
    match ← readHeaders request kMaximumHeaderCount (request_line_end + 2) {} with
    | none => return none
    | some fields =>
      return fields.host.map fun host =>
        { method, target, origin := fields.origin, last_event_id := fields.last_event_id, host }

def parseReadOnlyHttpRequest (request : Bytes) : Checked (Option HttpRequest) := do
  if request.length < 4 ∨ request.length > kMaximumRequestBytes then return none
  let last ← minus request.length 4
  if (← substrFrom request last) ≠ crlf ++ crlf ∨ findPiece (crlf ++ crlf) request ≠ some last then return none
  if !(← isClean request) then return none
  match findPiece crlf request with
  | none => return none
  | some request_line_end => readRequest request request_line_end

variable {front rest text : Bytes} {byte : UInt8}

theorem byteAt_front : byteAt (front ++ byte :: rest) front.length = .ok byte := by
  simp [byteAt, pure, Except.pure]

theorem substr_front : substr (front ++ rest) 0 front.length = .ok front := by
  simp [substr, pure, Except.pure]

theorem substr_middle {piece : Bytes} : substr (front ++ (piece ++ rest)) front.length piece.length = .ok piece := by
  simp [substr, pure, Except.pure]

theorem substrFrom_front : substrFrom (front ++ rest) front.length = .ok rest := by
  simp [substrFrom, pure, Except.pure]

theorem minus_of_le {left right : Nat} (fits : right ≤ left) : minus left right = .ok (left - right) := if_pos fits

theorem isCleanAt_eq : isCleanAt (front ++ byte :: rest) front.length = .ok
    (if byte = carriage then rest.head? == some newline
      else if byte = newline then front.getLast? == some carriage
      else (0x20 ≤ byte || byte == tab) && byte != 0x7f) := by
  unfold isCleanAt
  simp only [byteAt_front, bind, Except.bind]
  by_cases ends : byte = carriage
  · rw [if_pos ends, if_pos ends]
    cases rest with
    | nil => simp [pure, Except.pure]
    | cons next more =>
      have long : ¬front.length + 1 ≥ (front ++ byte :: next :: more).length := by simp
      have here : byteAt (front ++ byte :: next :: more) (front.length + 1) = .ok next := by
        simpa using @byteAt_front (front ++ [byte]) more next
      rw [if_neg long, here]
      rfl
  · rw [if_neg ends, if_neg ends]
    by_cases line : byte = newline
    · rw [if_pos line, if_pos line]
      rcases List.eq_nil_or_concat' front with rfl | ⟨before, last, rfl⟩
      · rfl
      · have some_byte : ¬(before ++ [last]).length = 0 := by simp
        have here : byteAt (before ++ [last] ++ byte :: rest) ((before ++ [last]).length - 1) = .ok last := by
          rw [List.append_assoc, List.length_append]
          exact byteAt_front
        rw [if_neg some_byte, here, List.getLast?_concat]
        rfl
    · rw [if_neg line, if_neg line]
      have same : (!(byte < 0x20 && byte != tab)) = (0x20 ≤ byte || byte == tab) := by
        simp only [Bool.not_and, bne, Bool.not_not, ← decide_not, UInt8.not_lt]
      rw [same]
      rfl

theorem isClean_from : (List.range' front.length rest.length).allM (isCleanAt (front ++ rest))
    = .ok (cleanBytes front.getLast? rest) := by
  induction rest generalizing front with
  | nil => rfl
  | cons byte rest ih =>
    have later := @ih (front ++ [byte])
    rw [List.length_append, List.append_assoc, List.getLast?_concat] at later
    rw [List.length_cons, List.range'_succ, List.allM, isCleanAt_eq, cleanBytes]
    cases good : (if byte = carriage then rest.head? == some newline
      else if byte = newline then front.getLast? == some carriage
      else (0x20 ≤ byte || byte == tab) && byte != 0x7f) with
    | true => exact later
    | false => rfl

theorem isClean_eq : isClean text = .ok (cleanBytes none text) := by
  rw [isClean, List.range_eq_range']
  exact @isClean_from [] text

theorem find_absent {p : UInt8 → Bool} (none_found : findFrom p text 0 = none) :
    findFrom p (front ++ text) front.length = none := by
  rw [findFrom_append, none_found]
  rfl

theorem withoutQuery_eq : withoutQuery text = .ok (pathOf text) := by
  unfold withoutQuery
  cases found : findFrom isQueryOrFragment text 0 with
  | none =>
    have plain := findFrom_none.mp found
    have all : pathOf text = text := by
      rw [pathOf, List.takeWhile_eq_self_iff]
      exact fun byte member => by rw [plain byte member]; rfl
    rw [all]
    rfl
  | some stop =>
    obtain ⟨front, byte, rest, rfl, plain, hit, rfl⟩ := findFrom_zero.mp found
    have cut : pathOf (front ++ byte :: rest) = front := by
      rw [pathOf, List.takeWhile_append_of_pos, List.takeWhile_cons_of_neg, List.append_nil]
      · rw [hit]
        decide
      · exact fun other member => by rw [plain other member]; rfl
    rw [cut]
    exact substr_front

theorem blank_free (plain : ∀ other ∈ front, (other == blank) = false) : blank ∉ front :=
  fun member => absurd (plain blank member) (by decide)

theorem readRequestLine_eq (fits : text.length ≤ kMaximumRequestLineBytes) :
    readRequestLine text = .ok (Web.readRequestLine text) := by
  unfold readRequestLine Web.readRequestLine
  cases first : findFrom (· == blank) text 0 with
  | none =>
    rw [List.splitOn_eq_singleton (blank_free (findFrom_none.mp first))]
    rfl
  | some first_space =>
    obtain ⟨method, byte, rest, rfl, plain, hit, rfl⟩ := findFrom_zero.mp first
    cases eq_of_beq hit
    have after : method ++ blank :: rest = (method ++ [blank]) ++ rest := by simp
    have place : (method ++ [blank]).length = method.length + 1 := by simp
    rw [List.splitOn_append_cons_self_of_not_mem (blank_free plain)]
    cases second : findFrom (· == blank) rest 0 with
    | none =>
      have missing := @find_absent (method ++ [blank]) _ _ second
      rw [← after, place] at missing
      rw [List.splitOn_eq_singleton (blank_free (findFrom_none.mp second))]
      simp only [missing]
      rfl
    | some second_space =>
      obtain ⟨target, byte, version, rfl, clear, hit, rfl⟩ := findFrom_zero.mp second
      cases eq_of_beq hit
      have found := findFrom_append (p := (· == blank)) (method ++ [blank]) (target ++ blank :: version)
      rw [← after, place, second, Option.map_some] at found
      simp only [found]
      have beyond : method ++ blank :: (target ++ blank :: version)
          = (method ++ blank :: (target ++ [blank])) ++ version := by
        simp
      have end_place : (method ++ blank :: (target ++ [blank])).length = method.length + 1 + target.length + 1 := by
        simp only [List.length_append, List.length_cons, List.length_nil]
        omega
      have third := findFrom_append (p := (· == blank)) (method ++ blank :: (target ++ [blank])) version
      have version_read := @substrFrom_front (method ++ blank :: (target ++ [blank])) version
      have target_read := @substr_middle (method ++ [blank]) (blank :: version) target
      rw [← beyond, end_place] at third version_read
      rw [← after, place] at target_read
      have wide : minus (method.length + 1 + target.length) method.length = .ok (target.length + 1) := by
        rw [minus_of_le (by omega)]
        congr 1
        omega
      have width : minus (target.length + 1) 1 = .ok target.length := minus_of_le (Nat.le_add_left 1 _)
      rw [List.splitOn_append_cons_self_of_not_mem (blank_free clear)]
      cases more : findFrom (· == blank) version 0 with
      | some k =>
        obtain ⟨front, byte, rest, rfl, plain, hit, -⟩ := findFrom_zero.mp more
        cases eq_of_beq hit
        rw [List.splitOn_append_cons_self_of_not_mem (blank_free plain)]
        obtain ⟨piece, others, pieces⟩ := List.exists_cons_of_ne_nil (List.splitOn_ne_nil blank rest)
        rw [pieces]
        simp only [third, more]
        rfl
      | none =>
        rw [List.splitOn_eq_singleton (blank_free (findFrom_none.mp more))]
        simp only [third, more, version_read, substr_front, target_read, wide, width, withoutQuery_eq, bind, Except.bind,
          Option.map_none, Option.isSome_none, Bool.false_eq_true, if_false]
        have short : ¬List.length (method ++ blank :: (target ++ blank :: version)) > kMaximumRequestLineBytes :=
          Nat.not_lt.mpr fits
        simp only [short, false_or]
        by_cases known : version = ascii "HTTP/1.1"
        · cases safe : isSafeTarget (pathOf target) <;> simp [known, pure, Except.pure]
        · simp [known, pure, Except.pure]

theorem readHeader_eq {headers : Headers} : readHeader headers text = .ok (Web.readHeader headers text) := by
  unfold readHeader Web.readHeader
  cases found : findFrom (· == colon) text 0 with
  | none =>
    have free : colon ∉ text := fun member => absurd (findFrom_none.mp found colon member) (by decide)
    rw [splitFirst_none free]
    rfl
  | some colon_at =>
    obtain ⟨name, byte, rest, rfl, plain, hit, rfl⟩ := findFrom_zero.mp found
    cases eq_of_beq hit
    have free : colon ∉ name := fun member => absurd (plain colon member) (by decide)
    have value := @substrFrom_front (name ++ [colon]) rest
    rw [List.append_assoc, List.length_append] at value
    rw [splitFirst_append free]
    simp only [substr_front, bind, Except.bind]
    by_cases empty : name = []
    · subst empty
      rfl
    · rw [if_neg (fun none => empty (List.length_eq_zero_iff.mp none))]
      cases token : name.all isTokenCharacter with
      | false => simp [pure, Except.pure]
      | true =>
        have rest_read : substrFrom (name ++ colon :: rest) (name.length + 1) = .ok rest := value
        rw [rest_read]
        cases safe : isSafeHeaderValue (trimOptionalWhitespace rest) with
        | false => simp [safe, pure, Except.pure]
        | true =>
          simp only [safe, empty, Bool.not_true, Bool.false_eq_true, if_false, not_true_eq_false, or_false]
          rfl

theorem headerTurn_eq {headers : Headers} (plain : isLineText text = true) (filled : text ≠ []) :
    headerTurn (front ++ (text ++ crlf ++ rest)) front.length headers
      = .ok ((Web.readHeader headers text).map ((front ++ (text ++ crlf)).length, ·)) := by
  have stop : findPieceFrom crlf (front ++ (text ++ crlf ++ rest)) front.length
      = some (front.length + text.length) := by
    rw [findPieceFrom, List.drop_left]
    exact congrArg (Option.map (front.length + ·)) (findPiece_of_free (isLineText_avoids plain).1)
  have some_byte := List.length_pos_iff.mpr filled
  have line := @substr_middle front (crlf ++ rest) text
  have width : minus (front.length + text.length) front.length = .ok text.length := by
    rw [minus_of_le (Nat.le_add_right _ _), Nat.add_sub_cancel_left]
  unfold headerTurn
  rw [stop]
  simp only [width, bind, Except.bind, if_neg (show ¬front.length + text.length = front.length by omega)]
  rw [List.append_assoc, line, List.length_append, List.length_append, ← Nat.add_assoc]
  simp only [readHeader_eq]
  rfl

/-- Where the line end that closes the headers stands. -/
theorem headers_end (lines : List Bytes) : minus (front ++ requestText lines).length 2
    = .ok (front ++ lines.flatMap (· ++ crlf)).length := by
  have long : (front ++ requestText lines).length = (front ++ lines.flatMap (· ++ crlf)).length + 2 := by
    rw [requestText, ← List.append_assoc, List.length_append]
    rfl
  rw [long, minus_of_le (Nat.le_add_left 2 _), Nat.add_sub_cancel]

theorem readHeaders_eq {lines : List Bytes} {remaining : Nat} {headers : Headers}
    (plain : ∀ line ∈ lines, isLineText line = true ∧ line ≠ []) :
    readHeaders (front ++ requestText lines) remaining front.length headers
      = .ok (if lines.length > remaining then none else lines.foldlM Web.readHeader headers) := by
  induction lines generalizing front remaining headers with
  | nil =>
    unfold readHeaders
    rw [headers_end]
    simp [bind, Except.bind, pure, Except.pure]
  | cons line rest ih =>
    obtain ⟨text, filled⟩ := plain line (.head _)
    have shape : requestText (line :: rest) = line ++ crlf ++ requestText rest := by simp [requestText]
    have turn := @headerTurn_eq front (requestText rest) line headers text filled
    rw [← shape] at turn
    have more : ¬(front ++ (line :: rest).flatMap (· ++ crlf)).length ≤ front.length := by
      rw [List.flatMap_cons, List.length_append, List.length_append, List.length_append, crlf,
        List.length_cons, List.length_singleton]
      omega
    unfold readHeaders
    rw [headers_end]
    simp only [bind, Except.bind, if_neg more]
    cases remaining with
    | zero => simp [pure, Except.pure]
    | succ remaining =>
      rw [turn]
      simp only [List.length_cons, List.foldlM_cons]
      cases read : Web.readHeader headers line with
      | none => simp [pure, Except.pure]
      | some headers =>
        have later := @ih (front ++ (line ++ crlf)) remaining headers fun other member => plain other (.tail _ member)
        rw [List.append_assoc, ← shape] at later
        simpa using later

theorem readRequestLine_long (long : text.length > kMaximumRequestLineBytes) : Web.readRequestLine text = none := by
  unfold Web.readRequestLine
  split
  · rw [if_pos (.inl long)]
  · rfl

theorem parse_unframed (other : ¬(4 ≤ text.length ∧ text.length ≤ kMaximumRequestBytes
    ∧ findPiece (crlf ++ crlf) text = some (text.length - 4) ∧ cleanBytes none text = true)) :
    Web.parseReadOnlyHttpRequest text = none := by
  unfold Web.parseReadOnlyHttpRequest
  rw [if_pos]
  by_contra framed
  simp only [not_or, Nat.not_lt, not_not] at framed
  exact other framed

/-- Lines that passed the two tests. -/
theorem parse_lines {line : Bytes} {headers : List Bytes} (first : isLineText line = true)
    (plain : ∀ header ∈ headers, isLineText header = true ∧ header ≠ [])
    (fits : (requestText (line :: headers)).length ≤ kMaximumRequestBytes) :
    (match findPiece crlf (requestText (line :: headers)) with
      | none => return none
      | some request_line_end =>
        readRequest (requestText (line :: headers)) request_line_end)
      = Except.ok (Web.parseReadOnlyHttpRequest (requestText (line :: headers))) := by
  have shape : requestText (line :: headers) = line ++ crlf ++ requestText headers := by simp [requestText]
  have stop : findPiece crlf (requestText (line :: headers)) = some line.length := by
    rw [shape]
    exact findPiece_of_free (isLineText_avoids first).1
  rw [stop, parse_requestText first plain fits]
  unfold readRequest
  by_cases long : line.length > kMaximumRequestLineBytes
  · simp only [if_pos long, readRequestLine_long long]
    rfl
  · have line_read : substr (requestText (line :: headers)) 0 line.length = .ok line := by
      rw [shape, List.append_assoc]
      exact substr_front
    have fields := @readHeaders_eq (line ++ crlf) headers kMaximumHeaderCount {} plain
    rw [← shape] at fields
    simp only [if_neg long, line_read, bind, Except.bind, readRequestLine_eq (Nat.not_lt.mp long)]
    cases Web.readRequestLine line with
    | none => rfl
    | some found =>
      have place : (line ++ crlf).length = line.length + 2 := List.length_append
      rw [place] at fields
      simp only [fields, Web.readHeaders]
      cases (if headers.length > kMaximumHeaderCount then none else headers.foldlM Web.readHeader {}) with
      | none => rfl
      | some read => cases host : read.host <;> simp [host, pure, Except.pure]

/-- Every position the parser uses is within its text, and it reads what the lines say. -/
theorem parse_eq : parseReadOnlyHttpRequest text = .ok (Web.parseReadOnlyHttpRequest text) := by
  unfold parseReadOnlyHttpRequest
  by_cases sized : text.length < 4 ∨ text.length > kMaximumRequestBytes
  · rw [if_pos sized, parse_unframed fun framed => by omega]
    rfl
  · obtain ⟨long, fits⟩ : 4 ≤ text.length ∧ text.length ≤ kMaximumRequestBytes := by omega
    have ending : substrFrom text (text.length - 4) = .ok (text.drop (text.length - 4)) := if_pos (Nat.sub_le _ _)
    rw [if_neg sized]
    simp only [minus_of_le long, ending, bind, Except.bind]
    by_cases ends : findPiece (crlf ++ crlf) text = some (text.length - 4)
    · obtain ⟨front, rest, split, length, -⟩ := findPiece_split (by decide) ends
      have last : text.drop (text.length - 4) = crlf ++ crlf := by
        have whole := congrArg List.length split
        have four : (crlf ++ crlf).length = 4 := rfl
        rw [List.length_append, List.length_append, length, four] at whole
        have none_left : rest = [] := List.length_eq_zero_iff.mp (by omega)
        rw [← length]
        conv_lhs => rw [split, none_left, List.append_nil]
        exact List.drop_left
      rw [last, ends, isClean_eq, if_neg (by simp)]
      cases clean : cleanBytes none text with
      | false =>
        rw [parse_unframed fun framed => by rw [clean] at framed; exact absurd framed.2.2.2 Bool.false_ne_true]
        rfl
      | true =>
        obtain ⟨line, headers, rfl, first, plain⟩ := framed_lines long ends clean
        exact parse_lines first plain fits
    · rw [if_pos (.inr ends), parse_unframed fun framed => ends framed.2.2.1]
      rfl

end CkGit.Web.Positions
