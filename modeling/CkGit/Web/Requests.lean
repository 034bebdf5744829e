import CkGit.Base.Search
import CkGit.Web.Router
import CkGit.Web.Segments

/-!
The HTTP requests both servers read (src/common/http_request.cpp): lines ended by
CR LF, a request line and its headers. A target with a percent sign must be a
route of the dashboard.
-/
namespace CkGit.Web
open CkGit.Base CkGit.Ci

def kMaximumRequestBytes : Nat := 16 * 1024
def kMaximumRequestLineBytes : Nat := kMaximumRouteBytes + 32
def kMaximumHeaderCount : Nat := 32

def crlf : Bytes := [carriage, newline]
def blank : UInt8 := ' '.toUInt8

def isTokenCharacter (character : UInt8) : Bool := isAlnum character || (ascii "!#$%&'*+-.^_\x60|~").contains character

def equalsIgnoreCase (left right : Bytes) : Bool := left.map toLower == right.map toLower

def isSafeHeaderValue (value : Bytes) : Bool :=
  value.all fun character => character == tab || (0x20 ≤ character && character != 0x7f)

def isOptionalWhitespace (character : UInt8) : Bool := character == blank || character == tab

def trimOptionalWhitespace (value : Bytes) : Bytes :=
  ((value.dropWhile isOptionalWhitespace).reverse.dropWhile isOptionalWhitespace).reverse

def isSafeTarget (target : Bytes) : Bool :=
  !target.isEmpty && target.length ≤ kMaximumRouteBytes && target.head? == some slash && target.all isRouteByte
    && (!target.contains percent || (parseHttpRoute target).kind != .notFound)

inductive HttpMethod where
  | get
  | head
  | post
  deriving DecidableEq

def httpMethod (text : Bytes) : Option HttpMethod :=
  if text = ascii "GET" then some .get
  else if text = ascii "HEAD" then some .head
  else if text = ascii "POST" then some .post
  else none

structure HttpRequest where
  method : HttpMethod
  target : Bytes
  origin : Bytes
  last_event_id : Bytes
  host : Bytes
  deriving DecidableEq

/-- What the headers read so far have said. -/
structure Headers where
  host : Option Bytes := none
  content_length_seen : Bool := false
  origin : Bytes := []
  last_event_id : Bytes := []
  deriving DecidableEq

def readHeader (headers : Headers) (line : Bytes) : Option Headers :=
  match splitFirst colon line with
  | (_, none) => none
  | (name, some rest) =>
    let value := trimOptionalWhitespace rest
    if name = [] ∨ ¬ name.all isTokenCharacter ∨ ¬ isSafeHeaderValue value then none
    else if equalsIgnoreCase name (ascii "host") then
      if headers.host.isSome ∨ value = [] then none else some { headers with host := some value }
    else if equalsIgnoreCase name (ascii "transfer-encoding") then none
    else if equalsIgnoreCase name (ascii "content-length") then
      if headers.content_length_seen ∨ parseDecimal (2 ^ 64 - 1) value ≠ some 0 then none
      else some { headers with content_length_seen := true }
    else if equalsIgnoreCase name (ascii "origin") then some { headers with origin := value }
    else if equalsIgnoreCase name (ascii "last-event-id") then some { headers with last_event_id := value }
    else some headers

def readHeaders (lines : List Bytes) : Option Headers :=
  if lines.length > kMaximumHeaderCount then none else lines.foldlM readHeader {}

/-- Line ends in pairs, and no other control but tabs. -/
def cleanBytes (previous : Option UInt8) (text : Bytes) : Bool :=
  match text with
  | [] => true
  | byte :: rest =>
    let good :=
      if byte = carriage then rest.head? == some newline
      else if byte = newline then previous == some carriage
      else (0x20 ≤ byte || byte == tab) && byte != 0x7f
    good && cleanBytes (some byte) rest

/-- The pieces between the line ends. -/
def crlfLines (text : Bytes) : List Bytes :=
  match text with
  | [] => [[]]
  | [byte] => [[byte]]
  | first :: second :: rest =>
    if first = carriage ∧ second = newline then [] :: crlfLines rest
    else (crlfLines (second :: rest)).modifyHead (first :: ·)

def isQueryOrFragment (byte : UInt8) : Bool := byte == '?'.toUInt8 || byte == '#'.toUInt8

/-- The target without its query or fragment. -/
def pathOf (target : Bytes) : Bytes := target.takeWhile (!isQueryOrFragment ·)

def readRequestLine (line : Bytes) : Option (HttpMethod × Bytes) :=
  match line.splitOn blank with
  | [method_text, target, version] =>
    if line.length > kMaximumRequestLineBytes ∨ version ≠ ascii "HTTP/1.1" ∨ ¬ isSafeTarget (pathOf target) then none
    else (httpMethod method_text).map (·, pathOf target)
  | _ => none

def parseReadOnlyHttpRequest (request : Bytes) : Option HttpRequest :=
  if request.length < 4 ∨ request.length > kMaximumRequestBytes
      ∨ findPiece (crlf ++ crlf) request ≠ some (request.length - 4) ∨ ¬ cleanBytes none request then none
  else match (crlfLines request).dropLast.dropLast with
  | [] => none
  | line :: headers => do
    let (method, target) ← readRequestLine line
    let fields ← readHeaders headers
    let host ← fields.host
    return { method, target, origin := fields.origin, last_event_id := fields.last_event_id, host }

/-- The bytes of a line. -/
def isLineText (line : Bytes) : Bool := line.all fun byte => (0x20 ≤ byte || byte == tab) && byte != 0x7f

/-- A request of a request line and header lines. -/
def requestText (lines : List Bytes) : Bytes := lines.flatMap (· ++ crlf) ++ crlf

theorem isLineText_append (front back : Bytes) : isLineText (front ++ back) = (isLineText front && isLineText back) :=
  List.all_append

theorem isLineText_avoids {line : Bytes} (text : isLineText line = true) : carriage ∉ line ∧ newline ∉ line := by
  constructor <;> intro member <;> exact absurd (List.all_eq_true.mp text _ member) (by decide)

theorem cleanBytes_line {line rest : Bytes} {previous : Option UInt8} (text : isLineText line = true) :
    cleanBytes previous (line ++ crlf ++ rest) = cleanBytes (some newline) rest := by
  induction line generalizing previous with
  | nil =>
    have differ : newline ≠ carriage := by decide
    simp [cleanBytes, crlf, differ]
  | cons byte tail ih =>
    obtain ⟨noReturn, noNewline⟩ := isLineText_avoids text
    have return_ne : byte ≠ carriage := fun same => noReturn (by rw [same]; exact List.mem_cons_self)
    have newline_ne : byte ≠ newline := fun same => noNewline (by rw [same]; exact List.mem_cons_self)
    simp only [isLineText, List.all_cons, Bool.and_eq_true] at text
    have printed : ((0x20 ≤ byte || byte == tab) && byte != 0x7f) = true := Bool.and_eq_true_iff.mpr text.1
    rw [List.cons_append, List.cons_append, cleanBytes]
    simp only [if_neg return_ne, if_neg newline_ne, printed, Bool.true_and]
    exact ih text.2

theorem cleanBytes_lines {lines : List Bytes} {previous : Option UInt8}
    (text : ∀ line ∈ lines, isLineText line = true) : cleanBytes previous (requestText lines) = true := by
  induction lines generalizing previous with
  | nil =>
    show cleanBytes previous [carriage, newline] = true
    rfl
  | cons line rest ih =>
    have first := text line List.mem_cons_self
    have shape : requestText (line :: rest) = line ++ crlf ++ requestText rest := by
      simp [requestText]
    rw [shape, cleanBytes_line first]
    exact ih fun other member => text other (List.mem_cons_of_mem _ member)

theorem crlfLines_line {line rest : Bytes} (text : isLineText line = true) :
    crlfLines (line ++ crlf ++ rest) = line :: crlfLines rest := by
  induction line with
  | nil => simp [crlfLines, crlf]
  | cons byte tail ih =>
    obtain ⟨_, later⟩ := Bool.and_eq_true_iff.mp (show (_ && isLineText tail) = true from text)
    have other : byte ≠ carriage := fun same =>
      (isLineText_avoids text).1 (by rw [same]; exact List.mem_cons_self)
    obtain ⟨next, others, shape⟩ : ∃ next others, tail ++ crlf ++ rest = next :: others := by
      cases tail with
      | nil => exact ⟨carriage, newline :: rest, rfl⟩
      | cons second more => exact ⟨second, more ++ crlf ++ rest, rfl⟩
    rw [List.cons_append, List.cons_append, shape, crlfLines, if_neg (fun both => other both.1), ← shape, ih later]
    rfl

theorem crlfLines_text {lines : List Bytes} (text : ∀ line ∈ lines, isLineText line = true) :
    crlfLines (requestText lines) = lines ++ [[], []] := by
  induction lines with
  | nil => decide
  | cons line rest ih =>
    have shape : requestText (line :: rest) = line ++ crlf ++ requestText rest := by
      simp [requestText]
    rw [shape, crlfLines_line (text line List.mem_cons_self),
      ih fun other member => text other (List.mem_cons_of_mem _ member)]
    rfl

theorem find_line {line rest : Bytes} (text : isLineText line = true) :
    findPiece (crlf ++ crlf) (line ++ crlf ++ rest)
      = (findPiece (crlf ++ crlf) (crlf ++ rest)).map (· + line.length) := by
  induction line with
  | nil => simp
  | cons byte tail ih =>
    obtain ⟨_, later⟩ := Bool.and_eq_true_iff.mp (show (_ && isLineText tail) = true from text)
    have other : byte ≠ carriage := fun same =>
      (isLineText_avoids text).1 (by rw [same]; exact List.mem_cons_self)
    have absent : ¬ (crlf ++ crlf).isPrefixOf (byte :: (tail ++ crlf ++ rest)) = true := by
      intro starts
      simp only [crlf, List.cons_append, List.isPrefixOf_cons_cons, Bool.and_eq_true, beq_iff_eq] at starts
      exact other starts.1.symm
    rw [List.cons_append, List.cons_append, findPiece, if_neg absent, ih later, Option.map_map]
    congr 1

/-- The first blank line is the one that ends the request. -/
theorem find_text {line : Bytes} {headers : List Bytes} (first : isLineText line = true)
    (text : ∀ header ∈ headers, isLineText header = true ∧ header ≠ []) :
    findPiece (crlf ++ crlf) (requestText (line :: headers)) = some ((requestText (line :: headers)).length - 4) := by
  have length : ∀ lines : List Bytes, 2 ≤ (requestText lines).length := by
    intro lines
    rw [requestText, List.length_append]
    exact Nat.le_add_left 2 _
  induction headers generalizing line with
  | nil =>
    have shape : requestText [line] = line ++ crlf ++ crlf := by simp [requestText]
    rw [shape, find_line first]
    have here : findPiece (crlf ++ crlf) (crlf ++ crlf) = some 0 := by decide
    rw [here]
    simp [crlf]
  | cons header rest ih =>
    obtain ⟨own, filled⟩ := text header List.mem_cons_self
    have later := ih own fun other member => text other (List.mem_cons_of_mem _ member)
    have shape : requestText (line :: header :: rest) = line ++ crlf ++ requestText (header :: rest) := by
      simp [requestText]
    obtain ⟨byte, tail, rfl⟩ := List.exists_cons_of_ne_nil filled
    have other : byte ≠ carriage := fun same =>
      (isLineText_avoids own).1 (by rw [same]; exact List.mem_cons_self)
    have starts : ∃ more, requestText ((byte :: tail) :: rest) = byte :: more :=
      ⟨tail ++ crlf ++ requestText rest, by simp [requestText]⟩
    obtain ⟨more, body⟩ := starts
    have skips : findPiece (crlf ++ crlf) (crlf ++ requestText ((byte :: tail) :: rest))
        = (findPiece (crlf ++ crlf) (requestText ((byte :: tail) :: rest))).map (· + 2) := by
      rw [body]
      have differ : carriage ≠ newline := by decide
      have second : ¬ (crlf ++ crlf).isPrefixOf (newline :: byte :: more) = true := by
        simp [crlf, differ]
      have third : ¬ (crlf ++ crlf).isPrefixOf (carriage :: newline :: byte :: more) = true := by
        simp [crlf, Ne.symm other]
      show findPiece (crlf ++ crlf) (carriage :: newline :: byte :: more) = _
      rw [findPiece, if_neg third, findPiece, if_neg second, Option.map_map]
      rfl
    have room := length rest
    rw [shape, find_line first, skips, later]
    simp only [Option.map_some, List.length_append, crlf, List.length_cons, List.length_nil]
    have long : 4 ≤ (requestText ((byte :: tail) :: rest)).length := by
      have split : requestText ((byte :: tail) :: rest) = (byte :: tail) ++ crlf ++ requestText rest := by
        simp [requestText]
      rw [split]
      simp only [List.length_append, crlf, List.length_cons, List.length_nil]
      omega
    congr 1
    omega

/-- A request of clean lines is read as its lines. -/
theorem parse_requestText {line : Bytes} {headers : List Bytes} (first : isLineText line = true)
    (text : ∀ header ∈ headers, isLineText header = true ∧ header ≠ [])
    (fits : (requestText (line :: headers)).length ≤ kMaximumRequestBytes) :
    parseReadOnlyHttpRequest (requestText (line :: headers)) = (do
      let (method, target) ← readRequestLine line
      let fields ← readHeaders headers
      let host ← fields.host
      return { method, target, origin := fields.origin, last_event_id := fields.last_event_id, host }) := by
  have lines : ∀ other ∈ line :: headers, isLineText other = true := by
    intro other member
    rcases List.mem_cons.mp member with rfl | inside
    · exact first
    · exact (text other inside).1
  have long : ¬ (requestText (line :: headers)).length < 4 := by
    simp only [requestText, List.flatMap_cons, List.length_append, crlf, List.length_cons, List.length_nil]
    omega
  have pieces : (crlfLines (requestText (line :: headers))).dropLast.dropLast = line :: headers := by
    have ends : line :: headers ++ [[], []] = line :: headers ++ [[]] ++ [[]] := by simp
    rw [crlfLines_text lines, ends, List.dropLast_concat, List.dropLast_concat]
  unfold parseReadOnlyHttpRequest
  rw [if_neg, pieces]
  rw [find_text first text, cleanBytes_lines lines]
  simp only [long, Nat.not_lt.mpr fits, not_true_eq_false, or_false, ne_eq]
  exact not_false

end CkGit.Web
