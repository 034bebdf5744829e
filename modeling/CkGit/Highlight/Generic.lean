import CkGit.Base.Prog
import CkGit.Highlight.Syntax

/-!
The table-driven tokenizer (class Generic in src/common/highlight.cpp). A read
outside the text and a search that starts outside it throw.
-/
namespace CkGit.Highlight
open CkGit.Base CkGit.Ci Prog

/-- A token from `start` to before `stop`. -/
structure Token where
  start : Nat
  stop : Nat
  kind : TokenKind
  deriving DecidableEq

/-- The first byte of the set at or after a position, or the end of the text. -/
def firstOf (s set : Bytes) (from_ : Nat) : Nat :=
  if s.length ≤ from_ then s.length else scanWhile (fun byte => !set.contains byte) s from_

/-- Remembers its last search: where it began and what it found. -/
structure Seeker where
  set : Bytes
  searched : Option (Nat × Nat) := none

def Seeker.next (seeker : Seeker) (s : Bytes) (from_ : Nat) : Nat × Seeker :=
  let fresh := firstOf s seeker.set from_
  match seeker.searched with
  | some (start, found) =>
    if start ≤ from_ ∧ from_ ≤ found then (found, seeker)
    else (fresh, { seeker with searched := some (from_, fresh) })
  | none => (fresh, { seeker with searched := some (from_, fresh) })

/-- The position of a text at or after a position. -/
def findIn (text rest : Bytes) (k : Nat) : Option Nat :=
  if text.isPrefixOf rest then some k
  else match rest with
  | [] => none
  | _ :: rest => findIn text rest (k + 1)

/-- A string form: an empty `close` ends it at the line end. -/
structure Form where
  close : Bytes
  multiline : Bool := false
  escapes : Bool := true
  interpolates : Bool := false

/-- An interpolation in progress: the string to resume and the depth of its bracket. -/
structure Frame where
  form : Form
  depth : Nat

inductive Pending where
  | none
  | function
  | type
  deriving DecidableEq

structure State where
  tokens : List Token := []
  newline : Seeker := { set := [newline] }
  brace : Seeker := { set := ascii "\x7d\n" }
  line_start : Bool := true
  statement_start : Bool := true
  first_word : Bool := true
  /-- A slash here starts a regular expression. -/
  expect_operand : Bool := true
  after_paren : Bool := false
  pending : Pending := .none
  depth : Nat := 0
  frames : List Frame := []
  heredoc : Bytes := []
  regex_blocked_until : Nat := 0

def kMaximumFrames : Nat := 16

abbrev Run (α : Type) := Prog State Unit α

variable (x : Syntax) (s : Bytes)

/-- s_[i] -/
def readAt (i : Nat) : Run UInt8 := ofExcept (match s[i]? with
  | some byte => .ok byte
  | none => .error ())

/-- s_.find(text, from) -/
def search (text : Bytes) (from_ : Nat) : Run (Option Nat) :=
  ofExcept (if from_ ≤ s.length then .ok (findIn text (s.drop from_) from_) else .error ())

def emit (start stop : Nat) (kind : TokenKind) : Run Unit :=
  whenever (start < stop) (modify fun st => { st with tokens := st.tokens ++ [⟨start, stop, kind⟩] })

def expectOperand (expected : Bool) : Run Unit := modify fun st => { st with expect_operand := expected }

def newlineNext (from_ : Nat) : Run Nat := do
  let found ← gets fun st => st.newline.next s from_
  modify fun st => { st with newline := found.2 }
  return found.1

def braceNext (from_ : Nat) : Run Nat := do
  let found ← gets fun st => st.brace.next s from_
  modify fun st => { st with brace := found.2 }
  return found.1

def wordEnd (i : Nat) : Nat :=
  scanWhile (fun byte => identChar byte || has x.ident_extra byte || has x.ident_start_extra byte) s (i + 1)

def toLineEnd (i : Nat) (kind : TokenKind) : Run Nat := do
  let stop ← newlineNext s i
  emit i stop kind
  return stop

/-- A run whose body ends after `close`, or at the line end when `close` is empty. -/
def closed (start body : Nat) (close : Bytes) (kind : TokenKind) : Run Nat := do
  let stop ← (if close.isEmpty then newlineNext s body
    else do
      match ← search s close body with
      | some found => return found + close.length
      | none => return s.length)
  emit start stop kind
  return stop

/-- Where nested comments end; every marker found moves on by its length. -/
def nestedEnd (start close : Bytes) (fuel j depth : Nat) : Run Nat :=
  match fuel with
  | 0 => throw ()
  | fuel + 1 =>
    if s.length ≤ j then return j
    else if startsAt s j start then nestedEnd start close fuel (j + start.length) (depth + 1)
    else if startsAt s j close then
      if depth = 1 then return j + close.length
      else nestedEnd start close fuel (j + close.length) (depth - 1)
    else nestedEnd start close fuel (j + 1) depth

def nestedComment (i : Nat) (start close : Bytes) : Run Nat := do
  let stop ← nestedEnd s start close (s.length + 1) i 0
  emit i stop .comment
  return stop

def lineBlockAt (i : Nat) : Bool :=
  if x.line_block_open = ascii "=" then byteAt s i == '='.toUInt8 && isAlpha (byteAt s (i + 1))
  else startsAt s i x.line_block_open && !identChar (byteAt s (i + x.line_block_open.length))

/-- The end of the line that starts with the closer, from the end of a line. -/
def lineBlockEnd (fuel j : Nat) : Run Nat :=
  match fuel with
  | 0 => throw ()
  | fuel + 1 =>
    if s.length ≤ j then return j
    else if startsAt s (j + 1) x.line_block_close then newlineNext s (j + 1)
    else do
      let next ← newlineNext s (j + 1)
      lineBlockEnd fuel next

/-- From an opening line to the end of the line starting with the closer. -/
def lineBlock (i : Nat) : Run Nat := do
  let first ← newlineNext s i
  let stop ← lineBlockEnd x s (s.length + 1) first
  emit i stop .comment
  return stop

def attributeEnd (rest : Bytes) (j depth : Nat) : Nat :=
  match rest with
  | [] => j
  | byte :: rest =>
    if byte = newline then j
    else if byte = '['.toUInt8 then attributeEnd rest (j + 1) (depth + 1)
    else if byte = ']'.toUInt8 then (if depth = 1 then j + 1 else attributeEnd rest (j + 1) (depth - 1))
    else attributeEnd rest (j + 1) depth

def attributeRun (i : Nat) : Run Nat := do
  let second ← readAt s (i + 1)
  let j := i + (if second = '!'.toUInt8 then 3 else 2)
  let stop := attributeEnd (s.drop j) j 1
  emit i stop .preprocessor
  return stop

/-- The level of a long bracket, at most 32 deep. -/
def longBracketLevel (i : Nat) : Option Nat :=
  if byteAt s i ≠ '['.toUInt8 then none
  else
    let level := (((s.drop (i + 1)).take 32).takeWhile (· == '='.toUInt8)).length
    if byteAt s (i + 1 + level) = '['.toUInt8 then some level else none

def longBracket (start i level : Nat) (kind : TokenKind) : Run Nat := do
  let closer := ascii "]" ++ List.replicate level '='.toUInt8 ++ ascii "]"
  let found ← search s closer (i + level + 2)
  let stop := (found.map (· + closer.length)).getD s.length
  emit start stop kind
  whenever (kind = .string) (expectOperand false)
  return stop

def quoteAt (i : Nat) : Run (Option Form) := do
  let byte ← readAt s i
  let interpolates := has x.interpolating_quotes byte
  if has x.quotes byte then return some { close := [byte], multiline := false, escapes := true, interpolates }
  else if has x.multiline_quotes byte then
    return some { close := [byte], multiline := true, escapes := true, interpolates }
  else if has x.raw_quotes byte then
    return some { close := [byte], multiline := true, escapes := false, interpolates }
  else return none

def Delimited.form (d : Delimited) : Form :=
  { close := d.close, multiline := d.multiline, escapes := d.escapes, interpolates := d.interpolates }

def stringFormAt (i : Nat) : Run (Option (Form × Nat)) :=
  match x.delimited.find? fun d => d.kind == .string && startsAt s i d.start with
  | some d => return some (d.form, d.start.length)
  | none => do
    let form ← quoteAt x s i
    return form.map fun form => (form, 1)

/-- A variable after a sigil: a name, a digit, or a braced text on one line. -/
def sigilEnd (i : Nat) : Run Nat :=
  let next := byteAt s (i + 1)
  if next = '\x7b'.toUInt8 then do
    let close ← braceNext s (i + 2)
    if s[close]? = some '\x7d'.toUInt8 then return close + 1 else return i
  else if identStart next || isDigit next then return identEnd s (i + 2)
  else return i

def push (frame : Frame) : Run Unit := modify fun st => { st with frames := frame :: st.frames }

def stringLoop (form : Form) (fuel start j : Nat) : Run Nat :=
  match fuel with
  | 0 => throw ()
  | fuel + 1 =>
    match s[j]? with
    | none => do
      emit start j .string
      return j
    | some byte => do
      let frames ← gets (·.frames.length)
      let depth ← gets (·.depth)
      if form.interpolates ∧ startsAt s j x.interpolation ∧ x.interpolation = ascii "\x7b"
          ∧ byteAt s (j + 1) = '\x7b'.toUInt8 then
        -- A doubled brace is a literal one.
        stringLoop form fuel start (j + 2)
      else if form.interpolates ∧ startsAt s j x.interpolation ∧ frames < kMaximumFrames then do
        emit start j .string
        emit j (j + x.interpolation.length) .variable
        push ⟨form, depth⟩
        expectOperand true
        return j + x.interpolation.length
      else do
        let sigil ← (if form.interpolates ∧ has x.string_sigils byte then sigilEnd s j else return j)
        if j < sigil then do
          emit start j .string
          emit j sigil .variable
          stringLoop form fuel sigil sigil
        else if form.escapes ∧ x.escape ≠ 0 ∧ byte = x.escape ∧ j + 1 < s.length then
          stringLoop form fuel start (j + 2)
        else if ¬ form.close.isEmpty ∧ startsAt s j form.close then do
          emit start (j + form.close.length) .string
          return j + form.close.length
        else if byte = newline ∧ (form.close.isEmpty ∨ ¬ form.multiline) then do
          emit start j .string
          return j
        else stringLoop form fuel start (j + 1)

/-- The string from `start` whose body starts at `j`. -/
def stringRun (start j : Nat) (form : Form) : Run Nat := do
  expectOperand false
  stringLoop x s form (s.length + 1) start j

def apostrophe (i : Nat) : Run Nat :=
  match charLiteralEnd s i x.escape with
  | some stop => do
    emit i stop .string
    expectOperand false
    return stop
  | none =>
    if x.chars = .lifetime ∧ identStart (byteAt s (i + 1)) then do
      let stop := identEnd s (i + 1)
      emit i stop .type
      expectOperand false
      return stop
    else do
      expectOperand true
      return i + 1

def prefixedCharEnd (i : Nat) : Nat :=
  let j := i + x.char_prefix.length
  match s[j]? with
  | none => j
  | some byte =>
    if byte = newline then j
    else
      let backslash_prefix := x.char_prefix.getLastD 0 == '\\'.toUInt8
      let j := if byte = '\\'.toUInt8 ∧ ¬ backslash_prefix then min s.length (j + 2)
        else min s.length (j + utf8Length byte)
      if backslash_prefix then scanWhile isAlpha s j else j

def annotationEnd (rest : Bytes) (stop : Nat) : Nat :=
  match rest with
  | [] => stop
  | byte :: rest =>
    if identChar byte || (byte == '.'.toUInt8 && identStart (rest.headD 0)) then annotationEnd rest (stop + 1)
    else stop

def annotation (i : Nat) : Run Nat := do
  let stop := annotationEnd (s.drop (i + 1)) (i + 1)
  emit i stop .preprocessor
  expectOperand false
  return stop

def symbolStart (i : Nat) : Nat := if byteAt s (i + 1) = ':'.toUInt8 then i + 2 else i + 1

/-- Whether the colon follows a name or a closing bracket. -/
def colonInside (i : Nat) : Run Bool :=
  if i = 0 then return false
  else do
    let before ← readAt s (i - 1)
    return identChar before || has (ascii ":)]\x7d\"'") before

def symbol (i : Nat) : Run (Option Nat) :=
  let first := byteAt s (symbolStart s i)
  if ¬ (identStart first || has x.ident_start_extra first) then return none
  else do
    let inside ← colonInside s i
    if inside then return none
    else do
      let stop := wordEnd x s (symbolStart s i)
      emit i stop .property
      expectOperand false
      return some stop

def assignmentFollows (j : Nat) : Bool :=
  let j := scanWhile blank s j
  byteAt s j == '='.toUInt8 && !has (ascii "=>~") (byteAt s (j + 1))

/-- Past a byte of the set, if one is there. -/
def pastOne (set : Bytes) (j : Nat) : Nat := if has set (byteAt s j) then j + 1 else j

/-- Where the quote or the name of a here-document is. -/
def heredocAt (i : Nat) : Nat := pastOne s (ascii "~-") (pastOne s (ascii "<") (i + 2))

def heredocQuote (i : Nat) : UInt8 :=
  if has (ascii "'\"") (byteAt s (heredocAt s i)) then byteAt s (heredocAt s i) else 0

def heredocName (i : Nat) : Nat := pastOne s (ascii "'\"") (heredocAt s i)

def heredocNameEnd (i : Nat) : Nat :=
  scanWhile (fun byte => isAlnum byte || byte == '_'.toUInt8) s (heredocName s i)

/-- Upper-case delimiters only, unless they are quoted. -/
def heredocStart (i : Nat) : Run (Option Nat) :=
  let stop := heredocNameEnd s i
  let id := (s.drop (heredocName s i)).take (stop - heredocName s i)
  let quote := heredocQuote s i
  if id.isEmpty ∨ ¬ (isUpperCase (id.headD 0) || id.headD 0 == '_'.toUInt8) then return none
  else if quote ≠ 0 then
    if byteAt s stop ≠ quote then return none
    else do
      modify fun st => { st with heredoc := id }
      return some (stop + 1)
  else if ¬ id.all fun byte => isUpperCase byte || isDigit byte || byte == '_'.toUInt8 then return none
  else do
    modify fun st => { st with heredoc := id }
    return some stop

/-- Past the closer of a delimiter; brackets nest. -/
def delimitedFrom (start close : UInt8) (rest : Bytes) (k depth : Nat) : Option Nat :=
  match rest with
  | [] => none
  | byte :: rest =>
    if byte = '\\'.toUInt8 then
      match rest with
      | [] => none
      | _ :: rest => delimitedFrom start close rest (k + 2) depth
    else if close ≠ start ∧ byte = start then delimitedFrom start close rest (k + 1) (depth + 1)
    else if byte = close then
      if depth = 1 then some (k + 1) else delimitedFrom start close rest (k + 1) (depth - 1)
    else delimitedFrom start close rest (k + 1) depth

def delimitedEnd (j : Nat) : Run Nat := do
  let start ← readAt s j
  return (delimitedFrom start (closerOf start) (s.drop (j + 1)) (j + 1) 1).getD s.length

def stringTail (i stop : Nat) : Run Nat := do
  let stop := scanWhile isAlpha s stop
  emit i stop .string
  expectOperand false
  return stop

def perlOperators : List String := ["q", "qq", "qw", "qr", "m", "s", "tr", "y"]

/-- The second part of a substitution. -/
def perlSecond (j stop : Nat) (delimiter : UInt8) : Run Nat :=
  if closerOf delimiter ≠ delimiter then
    let next := scanWhile (fun byte => blank byte || byte == newline) s stop
    match s[next]? with
    | some byte => if closerOf byte ≠ byte then delimitedEnd s next else return next
    | none => return next
  else if j < stop - 1 then do
    let last ← readAt s (stop - 1)
    if last = delimiter then delimitedEnd s (stop - 1) else return stop
  else return stop

/-- Whether the operator is a method behind an arrow. -/
def behindArrow (i : Nat) : Run Bool :=
  if i < 2 then return false
  else do
    let one ← readAt s (i - 1)
    let two ← readAt s (i - 2)
    return one == '>'.toUInt8 && two == '-'.toUInt8

def perlQuote (i j : Nat) (text : Bytes) : Run (Option Nat) :=
  if ¬ listed text perlOperators then return none
  else do
    let delimiter ← readAt s j
    let method ← behindArrow s i
    if ¬ isPunctuation delimiter ∨ has (ascii ",;)]\x7d>=:-") delimiter ∨ method then return none
    else do
      let first ← delimitedEnd s j
      let second ← (if listed text ["s", "tr", "y"] then perlSecond s j first delimiter else return first)
      let stop ← stringTail s i second
      return some stop

def percentBrackets : Bytes := ascii "([\x7b<|!/^~"

def percentAt (i : Nat) : Nat :=
  if has (ascii "qQwWiIrsx") (byteAt s (i + 1)) && has percentBrackets (byteAt s (i + 2)) then i + 2 else i + 1

def percentLiteral (i : Nat) : Run (Option Nat) :=
  if ¬ has percentBrackets (byteAt s (percentAt s i)) then return none
  else do
    let stop ← delimitedEnd s (percentAt s i)
    let stop ← stringTail s i stop
    return some stop

def sigilNameEnd (i : Nat) : Nat :=
  if isLowerCase (byteAt s (i + 1)) then i + 2 else scanWhile isUpperCase s (i + 1)

/-- A sigil's text, perhaps between triple quotes. -/
def sigilBody (j : Nat) : Run Nat := do
  let delimiter ← readAt s j
  if (delimiter = '"'.toUInt8 ∨ delimiter = '\''.toUInt8) ∧ byteAt s (j + 1) = delimiter
      ∧ byteAt s (j + 2) = delimiter then do
    let found ← search s ((s.drop j).take 3) (j + 3)
    return (found.map (· + 3)).getD s.length
  else delimitedEnd s j

def sigilLiteral (i : Nat) : Run (Option Nat) :=
  let j := sigilNameEnd s i
  if j = i + 1 ∨ ¬ has (ascii "/|\"'([\x7b<") (byteAt s j) then return none
  else do
    let stop ← sigilBody s j
    let stop ← stringTail s i stop
    return some stop

/-- Where the scan of a regular expression stops. -/
def regexStop (rest : Bytes) (j : Nat) (in_class : Bool) : Nat :=
  match rest with
  | [] => j
  | byte :: rest =>
    if byte = newline then j
    else if byte = '\\'.toUInt8 then
      match rest with
      | [] => j + 1
      | escaped :: rest => if escaped = newline then j + 1 else regexStop rest (j + 2) in_class
    else if byte = '['.toUInt8 then regexStop rest (j + 1) true
    else if byte = ']'.toUInt8 then regexStop rest (j + 1) false
    else if byte = '/'.toUInt8 ∧ ¬ in_class then j
    else regexStop rest (j + 1) in_class

/-- A literal on one line; when it never closes, no other one starts before the line end. -/
def regexLiteral (i : Nat) : Run (Option Nat) :=
  let next := byteAt s (i + 1)
  if s.length ≤ i + 1 ∨ next = newline ∨ next = '/'.toUInt8 ∨ next = '*'.toUInt8 then return none
  else
    let j := regexStop (s.drop (i + 1)) (i + 1) false
    if s[j]? = some '/'.toUInt8 then do
      let stop ← stringTail s i (j + 1)
      return some stop
    else do
      modify fun st => { st with regex_blocked_until := j }
      return none

def rustRaw (i j : Nat) (text : Bytes) : Run (Option Nat) :=
  let hashes := (((s.drop j).take 255).takeWhile (· == '#'.toUInt8)).length
  let k := j + hashes
  if byteAt s k = '"'.toUInt8 then do
    let closer := ascii "\"" ++ List.replicate hashes '#'.toUInt8
    let found ← search s closer (k + 1)
    let stop := (found.map (· + closer.length)).getD s.length
    emit i stop .string
    expectOperand false
    return some stop
  else if text = ascii "r" ∧ k = j + 1 ∧ identStart (byteAt s k) then do
    expectOperand false
    return some (identEnd s k)
  else return none

/-- Rust's raw, byte and C strings, and byte literals. -/
def rustString (i j : Nat) (text : Bytes) : Run (Option Nat) := do
  let next ← readAt s j
  if listed text ["r", "br", "cr"] ∧ (next = '"'.toUInt8 ∨ next = '#'.toUInt8) then rustRaw s i j text
  else
    match (if text = ascii "b" ∧ next = '\''.toUInt8 then charLiteralEnd s j '\\'.toUInt8 else none) with
    | some stop => do
      emit i stop .string
      expectOperand false
      return some stop
    | none =>
      if (text = ascii "b" ∨ text = ascii "c") ∧ next = '"'.toUInt8 then do
        let stop ← stringRun x s i (j + 1)
          { close := [next], multiline := true, escapes := true, interpolates := false }
        return some stop
      else return none

/-- The first that finds an end. -/
def firstFound (tries : List (Run (Option Nat))) : Run (Option Nat) :=
  match tries with
  | [] => return none
  | attempt :: rest => do
    match ← attempt with
    | some stop => return some stop
    | none => firstFound rest

def column0 (i : Nat) : Run Bool :=
  if i = 0 then return true
  else do
    let before ← readAt s (i - 1)
    return before == newline

def lineMarkers : List Bytes := eachWord x.line_comments

def withoutCaret (marker : Bytes) : Bytes := if marker.head? = some '^'.toUInt8 then marker.drop 1 else marker

/-- Runs when a condition holds. -/
def onlyIf (condition : Bool) (p : Run (Option Nat)) : Run (Option Nat) := if condition then p else return none

def found (p : Run Nat) : Run (Option Nat) := do
  let stop ← p
  return some stop

def tryMarkers (i : Nat) : Run (Option Nat) :=
  match (eachWord x.markers).find? (startsAt s i) with
  | some marker => found do
    emit i (i + marker.length) .preprocessor
    expectOperand true
    return i + marker.length
  | none => return none

def tryDelimited (i : Nat) : Run (Option Nat) :=
  match x.delimited.find? fun d => startsAt s i d.start with
  | some d =>
    if d.kind = .string then found (stringRun x s i (i + d.start.length) d.form)
    else found (closed s i (i + d.start.length) d.close d.kind)
  | none => return none

def longBracketComment (i : Nat) (marker : Bytes) : Option (Nat × Nat) :=
  let marker := withoutCaret marker
  if startsAt s i marker then (longBracketLevel s (i + marker.length)).map fun level => (i + marker.length, level)
  else none

def tryLongBrackets (i : Nat) (c : UInt8) : Run (Option Nat) :=
  match (lineMarkers x).findSome? (longBracketComment s i) with
  | some (start, level) => found (longBracket s i start level .comment)
  | none =>
    match (if c = '['.toUInt8 then longBracketLevel s i else none) with
    | some level => found (longBracket s i i level .string)
    | none => return none

def tryNested (i : Nat) : Run (Option Nat) :=
  match (pairs (eachWord x.nested_comments)).find? fun pair => startsAt s i pair.1 with
  | some (start, close) => found (nestedComment s i start close)
  | none => return none

def tryBlocks (i : Nat) : Run (Option Nat) :=
  match (pairs (eachWord x.block_comments)).find? fun pair => startsAt s i pair.1 with
  | some (start, close) => found (closed s i (i + start.length) close .comment)
  | none => return none

def tryLineComments (i : Nat) (at_statement : Bool) : Run (Option Nat) :=
  let opens := fun marker : Bytes =>
    (at_statement || marker.head? != some '^'.toUInt8) && startsAt s i (withoutCaret marker)
  onlyIf ((lineMarkers x).any opens) (found (toLineEnd s i .comment))

def tryQuote (i : Nat) : Run (Option Nat) := do
  match ← quoteAt x s i with
  | some form => found (stringRun x s i (i + 1) form)
  | none => return none

def tryPrefixedChar (i : Nat) : Run (Option Nat) :=
  onlyIf (startsAt s i x.char_prefix) (found do
    let stop := prefixedCharEnd x s i
    emit i stop .string
    expectOperand false
    return stop)

def trySigil (i : Nat) : Run (Option Nat) := do
  let stop ← sigilEnd s i
  if i < stop then found do
    emit i stop .variable
    expectOperand false
    return stop
  else return none

/-- Comments, strings and the other constructs that start with punctuation, in the order they are tried. -/
def structureAt (i : Nat) (c : UInt8) (at_line at_statement : Bool) : Run (Option Nat) := do
  let start ← column0 s i
  let named := identStart (byteAt s (i + 1))
  firstFound [
    onlyIf (start && !x.line_block_open.isEmpty && lineBlockAt x s i) (found (lineBlock x s i)),
    tryMarkers x s i,
    onlyIf (x.hash_attributes && c == '#'.toUInt8 && (startsAt s i (ascii "#[") || startsAt s i (ascii "#![")))
      (found (attributeRun s i)),
    tryDelimited x s i,
    onlyIf (at_line && x.hash_preprocessor && c == '#'.toUInt8) (found (toLineEnd s i .preprocessor)),
    onlyIf x.long_brackets (tryLongBrackets x s i c),
    tryNested x s i,
    tryBlocks x s i,
    tryLineComments x s i at_statement,
    (do
      let operand ← gets (·.expect_operand)
      onlyIf (c == '\''.toUInt8 && x.transpose && !operand) (return some (i + 1))),
    onlyIf (c == '\''.toUInt8 && x.chars != .none) (found (apostrophe x s i)),
    tryQuote x s i,
    tryPrefixedChar x s i,
    onlyIf (has x.sigils c) (trySigil s i),
    onlyIf (at_line && x.line_annotation != 0 && c == x.line_annotation && named) (found <| annotation s i),
    onlyIf (has x.annotations c && named) (found <| annotation s i),
    onlyIf (x.colon_symbols && c == ':'.toUInt8) (symbol x s i),
    (do
      let heredoc ← gets (·.heredoc)
      onlyIf (x.heredocs && c == '<'.toUInt8 && heredoc.isEmpty && startsAt s i (ascii "<<")) (heredocStart s i)),
    (do
      let operand ← gets (·.expect_operand)
      onlyIf (x.ruby_percent && c == '%'.toUInt8 && operand) (percentLiteral s i)),
    onlyIf (x.elixir_sigils && c == '~'.toUInt8) (sigilLiteral s i),
    (do
      let operand ← gets (·.expect_operand)
      let blocked ← gets (·.regex_blocked_until)
      onlyIf (x.regex && c == '/'.toUInt8 && operand && blocked ≤ i) (regexLiteral s i))]

/-- What a word reads as, whether its token takes one more byte, and whether the next word is still first. -/
structure Reading where
  kind : Option TokenKind
  longer : Bool := false
  stays_first : Bool := false

def classify (text key : Bytes) (stop : Nat) (at_line first after_paren : Bool) (pending : Pending) : Reading :=
  let next := byteAt s stop
  let keyword := inWords x.keywords key
  let literal := inWords x.literals key
  let head := text.headD 0
  let second := text.getD 1 0
  if x.lisp && (isDigit head || (text.length > 1 && has (ascii "+-") head && isDigit second)) then { kind := some .number }
  else if pending ≠ .none ∧ ¬ keyword ∧ ¬ literal then
    { kind := some (if pending = .function then .function else .type) }
  else if x.key_colons && next == ':'.toUInt8
      && (s.length ≤ stop + 1 || blank (byteAt s (stop + 1)) || byteAt s (stop + 1) == newline) then
    { kind := some .property }
  else if x.labels && at_line && next == ':'.toUInt8 && byteAt s (stop + 1) != ':'.toUInt8 then
    { kind := some .function, longer := true, stays_first := true }
  else if x.macro_bang && next == '!'.toUInt8 && has (ascii "([\x7b") (byteAt s (stop + 1)) then
    { kind := some .preprocessor, longer := true }
  else if x.assign_keys && assignmentFollows s stop then { kind := some .property }
  else if keyword || literal then { kind := some .keyword }
  else if inWords x.types key then { kind := some .type }
  else if inWords x.variable_words key || (x.registers && machineRegister key) then { kind := some .variable }
  else if first && x.first_word != .none then { kind := some .keyword }
  else if x.capitals == .types && isUpperCase head then { kind := some .type }
  else if x.capitals == .variables && (isUpperCase head || head == '_'.toUInt8) then { kind := some .variable }
  else if x.lisp && after_paren then { kind := some .function }
  else if x.functions && next == '('.toUInt8 then { kind := some .function }
  else if x.hyphen_functions && hyphenated text then { kind := some .function }
  else if x.hyphen_functions && text.length > 1 && head == '-'.toUInt8 && isAlpha second then { kind := some .property }
  else { kind := none }

/-- A prefixed string: short prefixes with an r take backslashes literally. -/
def prefixedString (i stop : Nat) (text key : Bytes) : Run (Option Nat) :=
  onlyIf (!x.string_prefixes.isEmpty && (x.string_prefixes == ascii "*" || inWords x.string_prefixes key)) do
    match ← stringFormAt x s stop with
    | some (form, size) =>
      let raw := text.length ≤ 3 && text.any fun byte => byte == 'r'.toUInt8 || byte == 'R'.toUInt8
      found (stringRun x s i (stop + size)
        { form with escapes := form.escapes && !raw, interpolates := x.prefix_interpolates })
    | none => return none

/-- What starts with a word but is no word. -/
def wordRun (i stop : Nat) (text key : Bytes) : Run (Option Nat) := do
  let start ← column0 s i
  firstFound [
    onlyIf (stop < s.length) (firstFound [
      onlyIf x.rust_strings (rustString x s i stop text),
      prefixedString x s i stop text key,
      onlyIf x.perl_quotes (perlQuote s i stop text)]),
    onlyIf (start && inWords x.end_markers text) (found do
      emit i s.length .comment
      return s.length),
    onlyIf (inWords x.comment_words key) (found (toLineEnd s i .comment))]

def word (i : Nat) (at_line first after_paren : Bool) (pending : Pending) : Run Nat := do
  let stop := wordEnd x s i
  let text := (s.drop i).take (stop - i)
  let key := if x.case_insensitive then lowerInto text else text
  match ← wordRun x s i stop text key with
  | some stop => return stop
  | none => do
    let reading := classify x s text key stop at_line first after_paren pending
    let stop := if reading.longer then stop + 1 else stop
    modify fun st => { st with first_word := st.first_word || reading.stays_first }
    match reading.kind with
    | some kind => emit i stop kind
    | none => pure ()
    let next := if inWords x.definers key then Pending.function
      else if inWords x.type_definers key then Pending.type else Pending.none
    whenever (next ≠ .none) (modify fun st => { st with pending := next })
    -- After a keyword such as return an operand follows; after a name it divides.
    expectOperand (inWords x.keywords key && !inWords x.literals key)
    return stop

def punctuation (i : Nat) (c : UInt8) : Run Nat := do
  let statements := x.first_word == .statement
  if c = '('.toUInt8 ∨ c = '['.toUInt8 ∨ c = '\x7b'.toUInt8 then do
    modify fun st => { st with
      depth := st.depth + 1
      expect_operand := true
      after_paren := c == '('.toUInt8
      first_word := st.first_word || (c == '\x7b'.toUInt8 && statements) }
    return i + 1
  else if c = ')'.toUInt8 ∨ c = ']'.toUInt8 ∨ c = '\x7d'.toUInt8 then do
    let frame ← gets fun st => st.frames.head?.filter fun frame => frame.depth == st.depth
    match frame with
    | some frame => do
      -- The bracket that closes an interpolation: the string resumes.
      modify fun st => { st with frames := st.frames.drop 1 }
      emit i (i + 1) .variable
      stringRun x s (i + 1) (i + 1) frame.form
    | none => do
      modify fun st => { st with
        depth := st.depth - 1
        expect_operand := c == '\x7d'.toUInt8
        first_word := st.first_word || (c == '\x7d'.toUInt8 && statements) }
      return i + 1
  else do
    modify fun st => { st with
      statement_start := st.statement_start || c == ';'.toUInt8
      first_word := st.first_word || (c == ';'.toUInt8 && statements)
      expect_operand := true }
    return i + 1

/-- The line that starts with the delimiter ends a here-document. -/
def endsHeredoc (heredoc line : Bytes) : Bool :=
  let line := line.dropWhile blank
  heredoc.isPrefixOf line && (line.length == heredoc.length || !identChar (line.getD heredoc.length 0))

def heredocBody (i : Nat) (heredoc : Bytes) (fuel j : Nat) : Run Nat :=
  match fuel with
  | 0 => throw ()
  | fuel + 1 =>
    if s.length ≤ j then do
      emit (i + 1) s.length .string
      modify fun st => { st with heredoc := [] }
      return s.length
    else do
      let stop ← newlineNext s j
      if endsHeredoc heredoc ((s.drop j).take (stop - j)) then do
        emit (i + 1) j .string
        modify fun st => { st with heredoc := [] }
        return stop
      else heredocBody i heredoc fuel (stop + 1)

def newlineAt (i : Nat) : Run Nat := do
  modify fun st => { st with
    line_start := true
    statement_start := true
    expect_operand := true
    pending := .none
    first_word := st.first_word || x.first_word != .none }
  let heredoc ← gets (·.heredoc)
  if heredoc.isEmpty then return i + 1 else heredocBody s i heredoc (s.length + 1) (i + 1)

def step (i : Nat) : Run Nat := do
  let c ← readAt s i
  if c = newline then newlineAt x s i
  else if blank c then return i + 1
  else do
    let before ← gets id
    modify fun st => { st with
      line_start := false
      statement_start := false
      first_word := false
      after_paren := false
      pending := .none }
    match ← structureAt x s i c before.line_start before.statement_start with
    | some stop => return stop
    | none =>
      if identStart c || has x.ident_start_extra c then
        word x s i before.line_start before.first_word before.after_paren before.pending
      else if isDigit c then do
        let stop := genericNumberEnd s i x.digit_quote
        emit i stop .number
        expectOperand false
        return stop
      else punctuation x s i c

def runFrom (fuel i : Nat) : Run Unit :=
  if i < s.length then
    match fuel with
    | 0 => throw ()
    | fuel + 1 => do
      let next ← step x s i
      runFrom fuel next
  else return ()

/-- Generic::run: a shebang line, then step after step. -/
def run : Run Unit := do
  if startsAt s 0 (ascii "#!") ∧ ¬ startsAt s 0 (ascii "#![") then do
    let first ← newlineNext s 0
    emit 0 first .comment
    runFrom x s s.length first
  else runFrom x s s.length 0

end CkGit.Highlight
