import CkGit.Base.Utf8
import CkGit.Yaml.Scalars

/-!
The parser of the YAML subset (parseYamlSubset in src/common/yaml_subset.cpp).
The parser runs over the lines with the position of the next one as its state.
The depth of the source is counted down: `room` is what the nesting bound
leaves. A node also keeps how it was written and the lines that it took itself,
which the source does not.
-/
namespace CkGit.Yaml
open CkGit.Base

structure RawLine where
  indent : Nat
  content : Bytes
  number : Nat
  /-- Empty, whitespace only, or a full-line comment. -/
  blank : Bool
  deriving DecidableEq

inductive Style where
  | flow
  | block
  deriving DecidableEq

inductive Chomping where
  | clip
  | strip
  | keep
  deriving DecidableEq

inductive YamlNode where
  | scalar (text : Bytes) (line : Nat)
  | blockScalar (folded : Bool) (chomping : Chomping) (text : Bytes) (line : Nat) (own : List Nat)
  | sequence (style : Style) (items : List YamlNode) (line : Nat) (own : List Nat)
  | mapping (style : Style) (entries : List (Bytes × YamlNode)) (line : Nat) (own : List Nat)

section
variable (dialect : YamlDialect)

/-- A line before the last may end in CRLF. -/
def withoutReturn (last : Bool) (text : Bytes) : Bytes :=
  if !last && text.getLast? == some 0x0d then text.dropLast else text

def splitLine (number : Nat) (last : Bool) (text : Bytes) : Except YamlError RawLine :=
  if text.length > dialect.bounds.line_bytes then
    throw (.tooLarge (ascii "a line exceeds its length limit"))
  else
    let physical := withoutReturn last text
    if physical.contains 0x0d then
      throw (.malformed (ascii
        "bare carriage returns are not allowed (use LF or CRLF line endings)") number)
    else
      let content := physical.dropWhile fun byte => byte == space
      if content.head? = some tab then
        throw (.malformed (ascii "tabs may not be used for indentation") number)
      else pure
        { indent := physical.length - content.length, content, number
          blank := content.isEmpty || content.head? == some '#'.toUInt8 }

def splitFrom (count : Nat) : List Bytes → Except YamlError (List RawLine)
  | [] => pure []
  | text :: rest =>
    if count ≥ dialect.bounds.lines then
      throw (.tooLarge (dialect.document ++ ascii " has too many lines"))
    else do
      let line ← splitLine dialect (count + 1) rest.isEmpty text
      return line :: (← splitFrom (count + 1) rest)

def splitLines (content : Bytes) : Except YamlError (List RawLine) :=
  splitFrom dialect 0 (content.splitOn newline)

def startsWithDash (line : RawLine) : Bool :=
  line.content.head? == some '-'.toUInt8
    && (line.content.length == 1 || line.content[1]? == some space)

abbrev Parse := StateT Nat (Except YamlError)

variable (lines : List RawLine)

/-- The line at the cursor, where there is one. -/
def current : Parse (Option RawLine) := do return lines[← get]?

def currentLine : Parse RawLine := do
  match lines[← get]? with
  | some line => pure line
  | none => throw .outOfRange

def advance (count : Nat) : Parse PUnit := modify (· + count)

def skipBlanks : Parse PUnit :=
  modify fun pos => pos + ((lines.drop pos).takeWhile (·.blank)).length

/-- The loop over the lines of one block: blank lines are skipped, and the first line that is none
of the block ends it. -/
def siblings {γ : Type} (takes : RawLine → Bool) (read : γ → RawLine → Parse γ) :
    Nat → γ → Parse γ
  | 0, _ => throw .diverged
  | turns + 1, seen => do
    skipBlanks lines
    match ← current lines with
    | none => pure seen
    | some line =>
      if takes line then do
        let next ← read seen line
        siblings takes read turns next
      else pure seen

def malformed {α : Type} (message : String) (line : Nat) : Parse α :=
  throw (.malformed (ascii message) line)

def tooDeep {α : Type} : Parse α :=
  throw (.tooLarge (dialect.document ++ ascii " is nested too deeply"))

def isPlainKeyByte (character : UInt8) : Bool :=
  ('A'.toUInt8 ≤ character && character ≤ 'Z'.toUInt8)
    || ('a'.toUInt8 ≤ character && character ≤ 'z'.toUInt8) || isDigit character
    || character == '.'.toUInt8 || character == '_'.toUInt8 || character == '-'.toUInt8

def addEntry (entries : List (Bytes × YamlNode)) (key : Bytes) (value : YamlNode) (line : Nat) :
    Except YamlError (List (Bytes × YamlNode)) :=
  if key.isEmpty || decide (key.length > dialect.bounds.key_bytes) then
    throw (.malformed (ascii "a key is empty or too long") line)
  else if !key.all isPlainKeyByte then
    throw (.malformed (ascii "a key has an unsupported character") line)
  else if entries.any fun entry => entry.1 == key then
    throw (.malformed (ascii "duplicate key '" ++ key ++ ascii "'") line)
  else if entries.length ≥ dialect.bounds.mapping_entries then
    throw (.tooLarge (ascii "a mapping has too many entries"))
  else pure (entries ++ [(key, value)])

/-- A key and what follows its colon. -/
def splitEntry (content : Bytes) (colon : Nat) : Except YamlError (Bytes × Bytes) := do
  let key ← slice content 0 colon
  let rest ← slice content (colon + 1) content.length
  pure (trim key, trim rest)

/-- Whether the block scalar is folded, and its chomping. -/
def blockIndicator (value : Bytes) : Option (Bool × Chomping) :=
  if value = ascii "|" then some (false, .clip)
  else if value = ascii "|-" then some (false, .strip)
  else if value = ascii "|+" then some (false, .keep)
  else if value = ascii ">" then some (true, .clip)
  else if value = ascii ">-" then some (true, .strip)
  else if value = ascii ">+" then some (true, .keep)
  else none

structure Folding where
  text : Bytes := []
  /-- The break after the last line may still become a space. -/
  open_text : Bool := false

/-- A line of text with what joins it to the text before. -/
def joinLine (folded : Bool) (base : Nat) (folding : Folding) (raw : RawLine) : Folding :=
  let more_indented := decide (raw.indent > base)
  let joined := if folded && folding.open_text then
      folding.text ++ [if more_indented then newline else space]
    else folding.text
  let text := joined ++ List.replicate (raw.indent - base) space ++ raw.content
  if folded && !more_indented then ⟨text, true⟩ else ⟨text ++ [newline], false⟩

def foldLine (folded : Bool) (base : Nat) (folding : Folding) (raw : RawLine) :
    Except YamlError Folding :=
  if raw.blank then
    pure ⟨folding.text ++ [newline], if folded && folding.open_text then false else folding.open_text⟩
  else if raw.indent < base then
    throw (.malformed (ascii "block scalar line is under-indented") raw.number)
  else
    let next := joinLine folded base folding raw
    if next.text.length > dialect.bounds.block_scalar_bytes then
      throw (.tooLarge (ascii "a block scalar exceeds its length limit"))
    else pure next

def isNewline (byte : UInt8) : Bool := byte == newline

def chomp (chomping : Chomping) (folding : Folding) : Bytes :=
  let text := if folding.open_text then folding.text ++ [newline] else folding.text
  match chomping with
  | .keep => text
  | .strip => text.rdropWhile isNewline
  | .clip => text.rdropWhile isNewline ++ [newline]

/-- The lines from the cursor that are blank or deeper than the owner. -/
def blockBody (owner_indent pos : Nat) : List RawLine :=
  (lines.drop pos).takeWhile fun raw => raw.blank || decide (raw.indent > owner_indent)

def parseBlockScalar (owner_indent line : Nat) (folded : Bool) (chomping : Chomping) :
    Parse YamlNode := do
  let pos ← get
  let body := blockBody lines owner_indent pos
  advance body.length
  match body.find? fun raw => !raw.blank with
  | none => throw (.malformed (ascii "block scalar '" ++ ascii (if folded then ">" else "|")
      ++ ascii "' has no content") line)
  | some first => do
    let folding ← liftM (body.foldlM (foldLine dialect folded first.indent) {})
    pure (.blockScalar folded chomping (chomp chomping folding) line (body.map (·.number)))

def flowItem (line : Nat) (items : List YamlNode) (part : Bytes) : Except YamlError (List YamlNode) :=
  if items.length ≥ dialect.bounds.flow_sequence_items then
    throw (.tooLarge (ascii "a sequence has too many items"))
  else do
    let text ← parseScalarToken dialect (trim part) line
    pure (items ++ [.scalar text line])

def parseFlowSequence (text : Bytes) (line : Nat) : Except YamlError YamlNode :=
  if text.length < 2 ∨ text.getLast? ≠ some ']'.toUInt8 then
    throw (.malformed (ascii "unterminated flow sequence") line)
  else do
    let body ← slice text 1 (text.length - 1)
    let parts ← splitFlow body line
    let items ← parts.foldlM (flowItem dialect line) []
    pure (.sequence .flow items line [])

/-- One entry of a flow mapping, with the parser of its value. -/
def flowEntry (value : Bytes → Nat → Nat → Parse YamlNode) (line : Nat)
    (entries : List (Bytes × YamlNode)) (part : Bytes) : Parse (List (Bytes × YamlNode)) :=
  match findKeyColon (trim part) with
  | none => malformed "flow mapping entry is not key: value" line
  | some colon => do
    let (key, rest) ← liftM (splitEntry (trim part) colon)
    let node ← value rest line 0
    liftM (addEntry dialect entries key node line)

def parseFlowMapping (value : Bytes → Nat → Nat → Parse YamlNode) (text : Bytes) (line : Nat) :
    Parse YamlNode :=
  if text.length < 2 ∨ text.getLast? ≠ some 0x7d then malformed "unterminated flow mapping" line
  else do
    let body ← liftM (slice text 1 (text.length - 1))
    let parts ← liftM (splitFlow body line)
    let entries ← parts.foldlM (flowEntry dialect value line) []
    pure (.mapping .flow entries line [])

/-- parseValue, with the parser of a flow mapping. -/
def parseValueWith (flowMapping : Bytes → Nat → Parse YamlNode) (text : Bytes) (line owner_indent : Nat) :
    Parse YamlNode := do
  let value ← liftM (stripComment text)
  match blockIndicator value with
  | some (folded, chomping) => parseBlockScalar dialect lines owner_indent line folded chomping
  | none =>
    if value.head? = some '['.toUInt8 then liftM (parseFlowSequence dialect value line)
    else if value.head? = some 0x7b then flowMapping value line
    else do
      let text ← liftM (parseScalarToken dialect value line)
      pure (.scalar text line)

def parseValue : Nat → Bytes → Nat → Nat → Parse YamlNode
  | 0 => parseValueWith dialect lines fun _ _ => tooDeep dialect
  | room + 1 => parseValueWith dialect lines (parseFlowMapping dialect (parseValue room))

structure Entries where
  entries : List (Bytes × YamlNode) := []
  own : List Nat := []

/-- The value stands on the line, or below it where the line ends. -/
def entryValue (node : Nat → Parse YamlNode) (value : Bytes → Nat → Nat → Parse YamlNode)
    (indent line : Nat) (rest : Bytes) : Parse YamlNode :=
  if rest.isEmpty then node (indent + 1) else value rest line indent

def readMappingEntry (node : Nat → Parse YamlNode) (value : Bytes → Nat → Nat → Parse YamlNode)
    (indent : Nat) (seen : Entries) (content : Bytes) (line : Nat) : Parse Entries := do
  let stripped ← liftM (stripComment content)
  match findKeyColon stripped with
  | none => malformed "expected a key: value entry" line
  | some colon => do
    let (key, rest) ← liftM (splitEntry content colon)
    let child ← entryValue node value indent line rest
    let entries ← liftM (addEntry dialect seen.entries key child line)
    pure ⟨entries, seen.own ++ [line]⟩

/-- The entries at this indent. -/
def mappingEntries (node : Nat → Parse YamlNode) (value : Bytes → Nat → Nat → Parse YamlNode)
    (indent : Nat) (seen : Entries) : Parse Entries :=
  siblings lines (fun raw => raw.indent == indent && !startsWithDash raw)
    (fun seen raw => do
      advance 1
      readMappingEntry dialect node value indent seen raw.content raw.number)
    (lines.length + 1) seen

def parseBlockMapping (node : Nat → Parse YamlNode) (value : Bytes → Nat → Nat → Parse YamlNode)
    (indent : Nat) : Parse YamlNode := do
  let first ← currentLine lines
  let seen ← mappingEntries dialect lines node value indent {}
  if seen.entries.isEmpty then malformed "a block mapping has no entries" first.number
  else pure (.mapping .block seen.entries first.number seen.own)

/-- A mapping whose first entry is the text after a sequence dash. -/
def parseSeededMapping (node : Nat → Parse YamlNode) (value : Bytes → Nat → Nat → Parse YamlNode)
    (indent : Nat) (seed : Bytes) (seed_line : Nat) : Parse YamlNode := do
  advance 1
  let first ← readMappingEntry dialect node value indent {} seed seed_line
  let seen ← mappingEntries dialect lines node value indent first
  pure (.mapping .block seen.entries seed_line seen.own)

/-- The parsers of what stands one level deeper. -/
structure Level where
  node : (min_indent : Nat) → Parse YamlNode
  seeded : (indent : Nat) → (seed : Bytes) → (seed_line : Nat) → Parse YamlNode
  value : Bytes → Nat → Nat → Parse YamlNode

structure Items where
  items : List YamlNode := []
  own : List Nat := []

def parseSequenceItem (below : Level) (indent : Nat) (line : RawLine) : Parse YamlNode := do
  let after ← liftM (slice line.content 1 line.content.length)
  if (trim after).isEmpty then do
    -- The item is a block on the following lines.
    advance 1
    below.node (indent + 1)
  else if after.head? ≠ some space then malformed "a sequence dash needs a space before its item" line.number
  else
    let lead := (after.takeWhile fun byte => byte == space).length
    let item ← liftM (slice after lead after.length)
    let stripped ← liftM (stripComment item)
    if (findKeyColon stripped).isSome then below.seeded (line.indent + 1 + lead) item line.number
    else do
      advance 1
      below.value item line.number line.indent

def readSequenceItem (below : Level) (indent : Nat) (seen : Items) (line : RawLine) : Parse Items :=
  if seen.items.length ≥ dialect.bounds.block_sequence_items then
    throw (.tooLarge (ascii "a sequence has too many items"))
  else do
    let item ← parseSequenceItem below indent line
    pure ⟨seen.items ++ [item], seen.own ++ [line.number]⟩

def parseBlockSequence (below : Level) (indent : Nat) : Parse YamlNode := do
  let first ← currentLine lines
  let seen ← siblings lines (fun raw => raw.indent == indent && startsWithDash raw)
    (readSequenceItem dialect below indent) (lines.length + 1) {}
  if seen.items.isEmpty then malformed "a block sequence has no items" first.number
  else pure (.sequence .block seen.items first.number seen.own)

/-- parseBlockNode, with the parsers of its two kinds. -/
def parseBlockNodeWith (sequence mapping : Nat → Parse YamlNode) (min_indent : Nat) : Parse YamlNode := do
  skipBlanks lines
  match ← current lines with
  | none => malformed "a value is missing where the file indents further" 0
  | some raw =>
    if raw.indent < min_indent then
      malformed "a value is missing where the file indents further" raw.number
    else if startsWithDash raw then sequence raw.indent
    else mapping raw.indent

def level : Nat → Level
  | 0 => {
      node := parseBlockNodeWith lines (fun _ => tooDeep dialect) fun _ => tooDeep dialect
      seeded := fun _ _ _ => tooDeep dialect
      value := parseValue dialect lines 0 }
  | room + 1 => {
      node := parseBlockNodeWith lines (parseBlockSequence dialect lines (level room))
        (parseBlockMapping dialect lines (level room).node (parseValue dialect lines (room + 1)))
      seeded := parseSeededMapping dialect lines (level room).node (parseValue dialect lines (room + 1))
      value := parseValue dialect lines (room + 1) }

/-- The mapping at the top, at depth 0. -/
def parseRoot : Parse YamlNode :=
  match dialect.bounds.nesting_depth with
  | 0 => tooDeep dialect
  | room + 1 => parseBlockMapping dialect lines (level dialect lines room).node
      (parseValue dialect lines (room + 1)) 0

def parseDocument : Parse YamlNode := do
  skipBlanks lines
  match ← current lines with
  | none => throw (.malformed (dialect.document ++ ascii " file is empty") 1)
  | some raw =>
    if raw.indent ≠ 0 then malformed "the top level must not be indented" raw.number
    else do
      let root ← parseRoot dialect lines
      skipBlanks lines
      match ← current lines with
      | some raw => throw (.malformed (ascii "unexpected content after " ++ dialect.document) raw.number)
      | none => pure root

end

def parseYamlSubset (content : Bytes) (dialect : YamlDialect) : Except YamlError YamlNode :=
  if content.length > dialect.bounds.document_bytes then
    throw (.tooLarge (dialect.document ++ ascii " file exceeds its size limit"))
  else if !isValidUtf8 content then throw .notUtf8
  else do
    let lines ← splitLines dialect content
    (parseDocument dialect lines).run' 0

end CkGit.Yaml
