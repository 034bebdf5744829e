import CkGit.Base.Utf8
import CkGit.Ci.Names
import CkGit.Events.Log

/-!
The routes of the dashboard: parseHttpRoute, encodePathSegment and
decodePathSegment (src/common/http_router.cpp), the links that sourceUrl builds
(src/common/web/layout.cpp) and the suffixes the pages append to them
(src/common/web/history.cpp, src/common/web/dashboard.cpp).
-/
namespace CkGit.Web
open CkGit.Base CkGit.Ci CkGit.Events

def kMaximumRouteBytes : Nat := 8192
def kMaximumRouteComponentBytes : Nat := 255
def kMaximumRoutePathDepth : Nat := 32

def hyphen : UInt8 := '-'.toUInt8
def percent : UInt8 := '%'.toUInt8
def backslash : UInt8 := '\\'.toUInt8

/-- What stands before the first such byte, and after it where there is one. -/
def splitFirst (sep : UInt8) (text : Bytes) : Bytes × Option Bytes :=
  match text with
  | [] => ([], none)
  | byte :: rest =>
    if byte = sep then ([], some rest)
    else
      let (before, after) := splitFirst sep rest
      (byte :: before, after)

/-- What stands before and after the last such piece. -/
def splitLast (piece text : Bytes) : Option (Bytes × Bytes) :=
  match text with
  | [] => none
  | byte :: rest =>
    match splitLast piece rest with
    | some (before, after) => some (byte :: before, after)
    | none => if piece.isPrefixOf (byte :: rest) then some ([], (byte :: rest).drop piece.length) else none

def unreserved (byte : UInt8) : Bool :=
  isAlnum byte || byte == hyphen || byte == '_'.toUInt8 || byte == '.'.toUInt8 || byte == '~'.toUInt8
    || byte == slash

def hexLetter (nibble : UInt8) : UInt8 :=
  if nibble < 10 then '0'.toUInt8 + nibble else 'A'.toUInt8 + (nibble - 10)

def hexDigit (byte : UInt8) : Option UInt8 :=
  if '0'.toUInt8 ≤ byte ∧ byte ≤ '9'.toUInt8 then some (byte - '0'.toUInt8)
  else if 'A'.toUInt8 ≤ byte ∧ byte ≤ 'F'.toUInt8 then some (byte - 'A'.toUInt8 + 10)
  else none

def encodeByte (byte : UInt8) : Bytes :=
  if unreserved byte then [byte] else [percent, hexLetter (byte >>> 4), hexLetter (byte &&& 15)]

def encodePathSegment (value : Bytes) : Bytes := value.flatMap encodeByte

/-- What a route may hold: no control of ASCII, no backslash. -/
def printable (byte : UInt8) : Bool := !(byte < 0x20 || byte == 0x7f || byte == backslash)

def decodeBytes (value : Bytes) : Option Bytes :=
  match value with
  | [] => some []
  | byte :: rest =>
    if byte = percent then
      match rest with
      | high :: low :: rest => do
        let high ← hexDigit high
        let low ← hexDigit low
        let byte := (high <<< 4) ||| low
        if unreserved byte || !printable byte then none
        else
          let decoded ← decodeBytes rest
          return byte :: decoded
      | _ => none
    else if unreserved byte then do
      let decoded ← decodeBytes rest
      return byte :: decoded
    else none

/-- U+0080 to U+009F in UTF-8. -/
def hasControl (value : Bytes) : Bool :=
  match value with
  | first :: second :: rest =>
    (first == 0xc2 && 0x80 ≤ second && second ≤ 0x9f) || hasControl (second :: rest)
  | _ => false

def decodePathSegment (value : Bytes) : Option Bytes :=
  if value.length > kMaximumRouteBytes then none
  else (decodeBytes value).filter fun decoded => isValidUtf8 decoded && !hasControl decoded

def isObjectId (value : Bytes) : Bool := isValidObjectId value

def validComponent (component : Bytes) : Bool :=
  !(component.isEmpty || component == ascii "." || component == ascii ".."
    || component.length > kMaximumRouteComponentBytes)

def validComponents (value : Bytes) (allow_empty : Bool) : Bool :=
  if value.isEmpty then allow_empty
  else (value.splitOn slash).all validComponent && (value.splitOn slash).length ≤ kMaximumRoutePathDepth

/-- Without heads/ or tags/. -/
def shortRef (value : Bytes) : Bytes :=
  match expectField (ascii "heads/") value, expectField (ascii "tags/") value with
  | some short, _ => short
  | none, some short => short
  | none, none => value

def validRef (value : Bytes) : Bool :=
  isObjectId value
    || (isValidBranchName (shortRef value) && shortRef value != ascii "@" && validComponents (shortRef value) false
      && ((shortRef value).splitOn slash).all fun component => component.head? != some '.'.toUInt8)

/-- A number of so many digits within the bounds. -/
def parseFixed (text : Bytes) (width minimum maximum : Nat) : Option Nat :=
  if text.length = width ∧ text.all isDigit ∧ minimum ≤ digitsValue text ∧ digitsValue text ≤ maximum then
    some (digitsValue text)
  else none

def daysOf (year month : Nat) : Nat :=
  let days := [31, 28, 31, 30, 31, 30, 31, 31, 30, 31, 30, 31]
  let leap := year % 4 = 0 ∧ (year % 100 ≠ 0 ∨ year % 400 = 0)
  days.getD (month - 1) 0 + if month = 2 ∧ leap then 1 else 0

def validDate (year month day : Nat) : Bool := 1 ≤ day && day ≤ daysOf year month

inductive RouteKind where
  | notFound | table | overview | commits | commit | tree | blob | source | raw
  | calendar | day | graph | ciRuns | ciRun | ciCancel | ciLog | ciLogStream | ciArtifact | releases
  | releaseAsset | ciRunners
  deriving DecidableEq

structure Route where
  kind : RouteKind := .notFound
  project : Bytes := []
  ref : Bytes := []
  path : Bytes := []
  cursor : Bytes := []
  year : Nat := 0
  month : Nat := 0
  day : Nat := 0
  sort_by_name : Bool := false
  run_id : Bytes := []
  step : Int := -1
  deriving DecidableEq

def isRouteByte (byte : UInt8) : Bool :=
  !(byte < 0x21 || byte > 0x7e || byte == '?'.toUInt8 || byte == '#'.toUInt8 || byte == backslash)

def withRef (route : Route) (target : Bytes) : Option Route := do
  let ref ← decodePathSegment target
  if validRef ref then some { route with ref } else none

/-- The number of a step before this ending. -/
def stepOf (ending tail : Bytes) : Option Nat :=
  let number := tail.take (tail.length - ending.length)
  if number.isEmpty || number.length > 6 then none else parseFixed number number.length 0 100000

def ciTail (project run tail : Bytes) : Option Route :=
  if tail.isEmpty then some { kind := .ciRun, project, run_id := run }
  else if tail = ascii "cancel" then some { kind := .ciCancel, project, run_id := run }
  else match expectField (ascii "artifacts/") tail with
    | some name =>
      if isValidCiArtifactName name then some { kind := .ciArtifact, project, run_id := run, path := name } else none
    | none =>
      if (ascii ".stream").isSuffixOf tail then
        (stepOf (ascii ".stream") tail).map fun step => { kind := .ciLogStream, project, run_id := run, step }
      else if (ascii ".log").isSuffixOf tail then
        (stepOf (ascii ".log") tail).map fun step => { kind := .ciLog, project, run_id := run, step }
      else none

def ciRoute (project target : Bytes) : Option Route :=
  let (run, tail) := splitFirst slash target
  if isValidCiId run then ciTail project run (tail.getD []) else none

def releaseRoute (project target : Bytes) : Option Route :=
  match splitFirst slash target with
  | (tag, some name) =>
    if !tag.isEmpty && tag.length ≤ 128 && tag != ascii "." && tag != ascii ".." && tag.all isNameCharacter
        && !name.isEmpty && name.length ≤ 64 && name.all isNameCharacter then
      some { kind := .releaseAsset, project, run_id := tag, path := name }
    else none
  | (_, none) => none

/-- The pages of files. -/
def fileKind (operation : Bytes) : Option RouteKind :=
  if operation = ascii "tree" then some .tree
  else if operation = ascii "blob" then some .blob
  else if operation = ascii "source" then some .source
  else if operation = ascii "raw" then some .raw
  else none

def fileRoute (project : Bytes) (kind : RouteKind) (target : Bytes) : Option Route :=
  match splitFirst colon target with
  | (ref, some path) =>
    if path.contains colon then none
    else do
      let ref ← decodePathSegment ref
      let path ← decodePathSegment path
      if !validRef ref || !validComponents path (kind = .tree) || (kind = .raw && !isObjectId ref) then none
      else some { kind, project, ref, path }
  | (_, none) => none

/-- The pages whose ref a colon may end. -/
def historyKind (operation : Bytes) : Option RouteKind :=
  if operation = ascii "calendar" then some .calendar
  else if operation = ascii "commits" then some .commits
  else if operation = ascii "graph" then some .graph
  else none

def before : Bytes := ascii "/before/"

/-- A month as in /2026/01. -/
def monthOf (suffix : Bytes) : Option (Nat × Nat) :=
  if suffix.length = 8 ∧ suffix[0]? = some slash ∧ suffix[5]? = some slash then do
    let year ← parseFixed ((suffix.drop 1).take 4) 4 1 9999
    let month ← parseFixed (suffix.drop 6) 2 1 12
    return (year, month)
  else none

def withMonth (route : Route) (suffix : Bytes) : Option Route :=
  (monthOf suffix).map fun month => { route with year := month.1, month := month.2 }

def withCursor (route : Route) (cursor : Bytes) : Option Route :=
  if isObjectId cursor then some { route with cursor } else none

/-- A ref that a colon ends, and what comes after it. -/
def boundaryRoute (project : Bytes) (kind : RouteKind) (ref suffix : Bytes) : Option Route := do
  let route ← withRef { kind, project } ref
  if suffix.isEmpty then some route
  else if kind = .calendar then withMonth route suffix
  else (expectField before suffix).bind (withCursor route)

def commitsRoute (project : Bytes) (kind : RouteKind) (target : Bytes) : Option Route :=
  match splitLast before target with
  | some (ref, cursor) => do withRef (← withCursor { kind, project } cursor) ref
  | none => withRef { kind, project } target

/-- A month at the end selects it. -/
def calendarRoute (project target : Bytes) : Option Route :=
  let suffix := target.drop (target.length - 8)
  if 8 ≤ target.length ∧ suffix[5]? = some slash ∧ suffix[0]? = some slash then do
    withRef (← withMonth { kind := .calendar, project } suffix) (target.take (target.length - 8))
  else withRef { kind := .calendar, project } target

def dayRoute (project target : Bytes) : Option Route :=
  match splitLast [slash] target with
  | none => none
  | some (ref, date) =>
    if date.length = 10 ∧ date[4]? = some hyphen ∧ date[7]? = some hyphen then do
      let year ← parseFixed (date.take 4) 4 1 9999
      let month ← parseFixed ((date.drop 5).take 2) 2 1 12
      let day ← parseFixed (date.drop 8) 2 1 31
      if validDate year month day then withRef { kind := .day, project, year, month, day } ref else none
    else none

/-- Without a colon. -/
def plainRoute (project operation target : Bytes) : Option Route :=
  if operation = ascii "overview" then withRef { kind := .overview, project } target
  else if operation = ascii "commits" then commitsRoute project .commits target
  else if operation = ascii "graph" then commitsRoute project .graph target
  else if operation = ascii "calendar" then calendarRoute project target
  else if operation = ascii "day" then dayRoute project target
  else none

def operationRoute (project operation target : Bytes) : Option Route :=
  if operation = ascii "commit" then
    if isObjectId target then some { kind := .commit, project, ref := target } else none
  else if operation = ascii "ci" then ciRoute project target
  else if operation = ascii "releases" then releaseRoute project target
  else match fileKind operation with
    | some kind => fileRoute project kind target
    | none =>
      match splitFirst colon target, historyKind operation with
      | (ref, some suffix), some kind => boundaryRoute project kind ref suffix
      | _, _ => plainRoute project operation target

def projectRoute (target : Bytes) : Option Route :=
  let (project, target) := splitFirst slash target
  if !isValidProjectName project then none
  else match target with
    | none => some { kind := .overview, project }
    | some target =>
      if target = ascii "ci" then some { kind := .ciRuns, project }
      else if target = ascii "releases" then some { kind := .releases, project }
      else match splitFirst slash target with
        | (operation, some target) => operationRoute project operation target
        | (_, none) => none

def targetRoute (target : Bytes) : Option Route :=
  if target.isEmpty || target.length > kMaximumRouteBytes || target.any (!isRouteByte ·) then none
  else if target = ascii "/" ∨ target = ascii "/by-name" then
    some { kind := .table, sort_by_name := target = ascii "/by-name" }
  else if target = ascii "/ci/runners" then some { kind := .ciRunners }
  else (expectField (ascii "/project/") target).bind projectRoute

def parseHttpRoute (target : Bytes) : Route := (targetRoute target).getD {}

def baseUrl (project kind ref : Bytes) : Bytes :=
  ascii "/project/" ++ project ++ slash :: kind ++ slash :: encodePathSegment ref

/-- A colon ends a ref that would be read differently. -/
def sourceUrl (project kind ref path : Bytes) : Bytes :=
  let result := baseUrl project kind ref
  if (fileKind kind).isSome then result ++ colon :: encodePathSegment path
  else if (historyKind kind).isSome && (parseHttpRoute result).ref != ref then result ++ [colon]
  else result

/-- A link of the pages. -/
inductive Link where
  | overview (ref : Bytes)
  | commit (id : Bytes)
  | tree (ref path : Bytes)
  | blob (ref path : Bytes)
  | source (ref path : Bytes)
  | raw (id path : Bytes)
  | calendar (ref : Bytes) (month : Option (Nat × Nat))
  | commits (ref : Bytes) (cursor : Option Bytes)
  | graph (ref : Bytes) (cursor : Option Bytes)
  | day (ref : Bytes) (year month day : Nat)

def monthSuffix (month : Nat × Nat) : Bytes :=
  slash :: padded 4 month.1 ++ slash :: padded 2 month.2

def dateString (year month day : Nat) : Bytes :=
  padded 4 year ++ hyphen :: padded 2 month ++ hyphen :: padded 2 day

namespace Link

def target (project : Bytes) (link : Link) : Bytes :=
  match link with
  | overview ref => sourceUrl project (ascii "overview") ref []
  | commit id => sourceUrl project (ascii "commit") id []
  | tree ref path => sourceUrl project (ascii "tree") ref path
  | blob ref path => sourceUrl project (ascii "blob") ref path
  | source ref path => sourceUrl project (ascii "source") ref path
  | raw id path => sourceUrl project (ascii "raw") id path
  | calendar ref month => sourceUrl project (ascii "calendar") ref [] ++ month.elim [] monthSuffix
  | commits ref cursor => sourceUrl project (ascii "commits") ref [] ++ cursor.elim [] (before ++ ·)
  | graph ref cursor => sourceUrl project (ascii "graph") ref [] ++ cursor.elim [] (before ++ ·)
  | day ref year month number => sourceUrl project (ascii "day") ref [] ++ slash :: dateString year month number

/-- Where the link leads. -/
def route (project : Bytes) (link : Link) : Route :=
  match link with
  | overview ref => { kind := .overview, project, ref }
  | commit id => { kind := .commit, project, ref := id }
  | tree ref path => { kind := .tree, project, ref, path }
  | blob ref path => { kind := .blob, project, ref, path }
  | source ref path => { kind := .source, project, ref, path }
  | raw id path => { kind := .raw, project, ref := id, path }
  | calendar ref month =>
    { kind := .calendar, project, ref, year := month.elim 0 (·.1), month := month.elim 0 (·.2) }
  | commits ref cursor => { kind := .commits, project, ref, cursor := cursor.getD [] }
  | graph ref cursor => { kind := .graph, project, ref, cursor := cursor.getD [] }
  | day ref year month number => { kind := .day, project, ref, year, month, day := number }

end Link
end CkGit.Web
