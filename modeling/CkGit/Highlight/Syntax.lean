import CkGit.Ci.Names

/-!
What the table-driven tokenizer of src/common/highlight.cpp reads: a Syntax
record for each language, its word lists, and the bounded scans over the text.
-/
namespace CkGit.Highlight
open CkGit.Base CkGit.Ci

def isAlpha (byte : UInt8) : Bool := isUpperCase byte || isLowerCase byte

def identStart (byte : UInt8) : Bool := isAlpha byte || byte == '_'.toUInt8 || 0x80 ≤ byte

def identChar (byte : UInt8) : Bool := identStart byte || isDigit byte

/-- Horizontal white space, including the carriage return of CRLF text. -/
def blank (byte : UInt8) : Bool :=
  byte == ' '.toUInt8 || byte == '\t'.toUInt8 || byte == '\r'.toUInt8 || byte == 0x0c || byte == 0x0b

def isPunctuation (byte : UInt8) : Bool := 0x21 ≤ byte && byte ≤ 0x7e && !isAlnum byte

def has (set : Bytes) (byte : UInt8) : Bool := byte != 0 && set.contains byte

def startsAt (s : Bytes) (i : Nat) (marker : Bytes) : Bool := !marker.isEmpty && marker.isPrefixOf (s.drop i)

def utf8Length (byte : UInt8) : Nat :=
  if 0xf0 ≤ byte ∧ byte ≤ 0xf7 then 4
  else if 0xe0 ≤ byte then (if byte ≤ 0xef then 3 else 1)
  else if 0xc0 ≤ byte then 2
  else 1

/-- The byte at a position, or NUL past the end. -/
def byteAt (s : Bytes) (i : Nat) : UInt8 := s.getD i 0

/-- while (j < n && p(s[j])) ++j -/
def scanWhile (p : UInt8 → Bool) (s : Bytes) (j : Nat) : Nat := j + ((s.drop j).takeWhile p).length

def identEnd (s : Bytes) (i : Nat) : Nat := scanWhile identChar s i

/-- The quote that closes an escaped character, looked for up to a limit. -/
def closeQuote (rest : Bytes) (k limit : Nat) : Option Nat :=
  match rest with
  | [] => none
  | byte :: rest =>
    if limit ≤ k ∨ byte = newline then none
    else if byte = '\''.toUInt8 then some (k + 1)
    else closeQuote rest (k + 1) limit

def charLiteralEnd (s : Bytes) (i : Nat) (escape : UInt8) : Option Nat :=
  match s[i + 1]? with
  | none => none
  | some byte =>
    if byte = newline ∨ byte = '\''.toUInt8 then none
    else if escape ≠ 0 ∧ byte = escape then closeQuote (s.drop (i + 3)) (i + 3) (i + 14)
    else
      let j := i + 1 + utf8Length byte
      if s[j]? = some '\''.toUInt8 then some (j + 1) else none

def hexNumber (s : Bytes) (i : Nat) : Bool :=
  byteAt s i == '0'.toUInt8 && (byteAt s (i + 1) == 'x'.toUInt8 || byteAt s (i + 1) == 'X'.toUInt8)

def nextDigit (rest : Bytes) : Bool := rest.head?.any isDigit

def numberEndFrom (hex apostrophes : Bool) (rest : Bytes) (before : Option UInt8) (j : Nat) : Nat :=
  match rest with
  | [] => j
  | byte :: rest =>
    if isAlnum byte || byte == '_'.toUInt8 || (byte == '\''.toUInt8 && apostrophes) then
      numberEndFrom hex apostrophes rest (some byte) (j + 1)
    else if byte == '.'.toUInt8 && !hex && nextDigit rest then numberEndFrom hex apostrophes rest (some byte) (j + 1)
    else if (byte == '+'.toUInt8 || byte == '-'.toUInt8) && !hex
        && (before == some 'e'.toUInt8 || before == some 'E'.toUInt8) && nextDigit rest then
      numberEndFrom hex apostrophes rest (some byte) (j + 1)
    else j

def genericNumberEnd (s : Bytes) (i : Nat) (apostrophes : Bool) : Nat :=
  numberEndFrom (hexNumber s i) apostrophes (s.drop i) none i

def closerOf (byte : UInt8) : UInt8 :=
  if byte = '('.toUInt8 then ')'.toUInt8
  else if byte = '['.toUInt8 then ']'.toUInt8
  else if byte = '\x7b'.toUInt8 then '\x7d'.toUInt8
  else if byte = '<'.toUInt8 then '>'.toUInt8
  else byte

def lower (byte : UInt8) : UInt8 := toLower byte

/-- A longer word is no keyword anyway. -/
def lowerInto (word : Bytes) : Bytes := if word.length > 64 then [] else word.map lower

def listed (word : Bytes) (words : List String) : Bool := (words.map ascii).contains word

def withoutRegister (word : Bytes) : Option Bytes :=
  if ["xmm", "ymm", "zmm"].any fun name => (ascii name).isPrefixOf word then some (word.drop 3)
  else if has (ascii "rxwvqdshbf") (word.headD 0) then some (word.drop 1)
  else none

def machineRegister (word : Bytes) : Bool :=
  if word.length < 2 ∨ word.length > 5 then false
  else match withoutRegister word with
  | none => false
  | some rest =>
    let digits := (rest.takeWhile isDigit).length
    let last := rest.drop digits
    digits != 0 && digits ≤ 2
      && (last.isEmpty || (word.headD 0 == 'r'.toUInt8 && last.length == 1 && has (ascii "dwb") (last.headD 0)))

def hyphenated (word : Bytes) : Bool :=
  match word with
  | before :: middle :: after :: rest =>
    (middle == '-'.toUInt8 && isAlpha before && isAlpha after) || hyphenated (middle :: after :: rest)
  | _ => false

/-- eachWord: the words between spaces. -/
def eachWord (list : Bytes) : List Bytes := (list.splitOn ' '.toUInt8).filter (!·.isEmpty)

def pairs (words : List Bytes) : List (Bytes × Bytes) :=
  match words with
  | one :: two :: rest => (one, two) :: pairs rest
  | _ => []

inductive TokenKind where
  | comment | string | keyword | number | property | preprocessor | variable | type | function | inserted | deleted
  deriving DecidableEq, Repr

/-- A string or comment form. An empty `close` ends the run at the end of its line. -/
structure Delimited where
  start : Bytes
  close : Bytes
  kind : TokenKind := .string
  escapes : Bool := true
  interpolates : Bool := false
  multiline : Bool := true

inductive Chars where
  | none
  | c
  | lifetime
  deriving DecidableEq

inductive Capitals where
  | plain
  | types
  | variables
  deriving DecidableEq

inductive FirstWord where
  | none
  | line
  | statement
  deriving DecidableEq

structure Syntax where
  line_comments : Bytes := []
  block_comments : Bytes := []
  nested_comments : Bytes := []
  delimited : List Delimited := []
  quotes : Bytes := []
  multiline_quotes : Bytes := []
  raw_quotes : Bytes := []
  string_prefixes : Bytes := []
  escape : UInt8 := '\\'.toUInt8
  chars : Chars := .none
  transpose : Bool := false
  char_prefix : Bytes := []
  keywords : Bytes := []
  types : Bytes := []
  literals : Bytes := []
  variable_words : Bytes := []
  case_insensitive : Bool := false
  comment_words : Bytes := []
  end_markers : Bytes := []
  definers : Bytes := []
  type_definers : Bytes := []
  ident_start_extra : Bytes := []
  ident_extra : Bytes := []
  sigils : Bytes := []
  annotations : Bytes := []
  line_annotation : UInt8 := 0
  markers : Bytes := []
  hash_preprocessor : Bool := false
  hash_attributes : Bool := false
  interpolation : Bytes := []
  interpolating_quotes : Bytes := []
  string_sigils : Bytes := []
  prefix_interpolates : Bool := false
  functions : Bool := true
  regex : Bool := false
  capitals : Capitals := .plain
  colon_symbols : Bool := false
  key_colons : Bool := false
  assign_keys : Bool := false
  lisp : Bool := false
  first_word : FirstWord := .none
  labels : Bool := false
  registers : Bool := false
  heredocs : Bool := false
  perl_quotes : Bool := false
  ruby_percent : Bool := false
  elixir_sigils : Bool := false
  rust_strings : Bool := false
  long_brackets : Bool := false
  line_block_open : Bytes := []
  line_block_close : Bytes := []
  macro_bang : Bool := false
  hyphen_functions : Bool := false
  digit_quote : Bool := false

/-- WordSet: a sorted list searched by bisection holds the words of the list. -/
def inWords (list word : Bytes) : Bool := !word.isEmpty && (eachWord list).contains word

end CkGit.Highlight
