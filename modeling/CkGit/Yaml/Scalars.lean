import CkGit.Base.Outcome
import CkGit.Base.Text
import Mathlib.Data.List.DropRight

/-!
The text of one line in the YAML subset (src/common/yaml_subset.cpp): comments,
scalars in the three styles, the colon that ends a key and the parts of a flow
collection. The scans that honour quotes share one pass over the text.
-/
namespace CkGit.Yaml
open CkGit.Base CkGit.Base.Outcome

inductive YamlError where
  | malformed (message : Bytes) (line : Nat)
  | tooLarge (message : Bytes)
  | notUtf8
  /-- An index or a position in a text that does not exist. -/
  | outOfRange
  /-- A loop that takes more turns than there are lines. -/
  | diverged
  deriving DecidableEq

/-- What the parser may raise. -/
def YamlError.Reported : YamlError → Prop
  | .malformed _ _ => True
  | .tooLarge _ => True
  | .notUtf8 => True
  | .outOfRange => False
  | .diverged => False

structure YamlBounds where
  document_bytes : Nat
  line_bytes : Nat
  lines : Nat
  key_bytes : Nat
  scalar_bytes : Nat
  block_scalar_bytes : Nat
  flow_sequence_items : Nat
  block_sequence_items : Nat
  mapping_entries : Nat
  nesting_depth : Nat

structure YamlDialect where
  bounds : YamlBounds
  prefix_text : Bytes
  document : Bytes

/-- yamlMalformed and yamlTooLarge. -/
def YamlError.what (dialect : YamlDialect) : YamlError → Bytes
  | .malformed message line => dialect.prefix_text ++ ascii ": " ++ message ++ ascii " (line "
    ++ decimal line ++ ascii ")"
  | .tooLarge message => dialect.prefix_text ++ ascii ": " ++ message
  | .notUtf8 => dialect.prefix_text ++ ascii ": the file is not valid UTF-8"
  | .outOfRange | .diverged => []

def apostrophe : UInt8 := 0x27
def quotation : UInt8 := 0x22
def backslash : UInt8 := 0x5c

/-- The bytes from one position to another. -/
def slice (text : Bytes) (start stop : Nat) : Except YamlError Bytes :=
  if start ≤ stop ∧ stop ≤ text.length then pure ((text.take stop).drop start) else throw .outOfRange

def isBlank (byte : UInt8) : Bool := byte == space || byte == tab

def trim (text : Bytes) : Bytes := (text.dropWhile isBlank).rdropWhile isBlank

inductive Quoted where
  | bare
  | single
  | double
  deriving DecidableEq

/-- The positions outside quotes with their bytes, and how the text ends. -/
def scan (quoted : Quoted) (index : Nat) (text : Bytes) : List (Nat × UInt8) × Quoted :=
  match quoted, text with
  | quoted, [] => ([], quoted)
  | .single, character :: rest =>
    scan (if character = apostrophe then .bare else .single) (index + 1) rest
  | .double, character :: rest =>
    if character = backslash then
      match rest with
      | [] => ([], .double)
      | _ :: after => scan .double (index + 2) after
    else scan (if character = quotation then .bare else .double) (index + 1) rest
  | .bare, character :: rest =>
    let opened := if character = apostrophe then Quoted.single
      else if character = quotation then .double else .bare
    let (bare, last) := scan opened (index + 1) rest
    ((index, character) :: bare, last)

theorem scan_spec (quoted : Quoted) (index : Nat) (text : Bytes) :
    (∀ place ∈ (scan quoted index text).1,
      ∃ skipped rest, text = skipped ++ place.2 :: rest ∧ place.1 = index + skipped.length)
      ∧ (scan quoted index text).1.Pairwise fun a b => a.1 < b.1 := by
  fun_induction scan quoted index text with
  | case1 => simp
  | case2 index character rest ih =>
    refine ⟨fun place member => ?_, ih.2⟩
    obtain ⟨skipped, later, rfl, at_place⟩ := ih.1 place member
    exact ⟨character :: skipped, later, rfl, by rw [at_place, List.length_cons]; omega⟩
  | case3 => simp
  | case4 index escaped rest ih =>
    refine ⟨fun place member => ?_, ih.2⟩
    obtain ⟨skipped, later, rfl, at_place⟩ := ih.1 place member
    exact ⟨backslash :: escaped :: skipped, later, rfl, by simp only [at_place, List.length_cons]; omega⟩
  | case5 index character rest plain ih =>
    refine ⟨fun place member => ?_, ih.2⟩
    obtain ⟨skipped, later, rfl, at_place⟩ := ih.1 place member
    exact ⟨character :: skipped, later, rfl, by rw [at_place, List.length_cons]; omega⟩
  | case6 index character rest opened bare last found ih =>
    rw [found] at ih
    refine ⟨fun place member => ?_, List.pairwise_cons.mpr ⟨fun place member => ?_, ih.2⟩⟩
    · rcases List.mem_cons.mp member with rfl | member
      · exact ⟨[], rest, rfl, rfl⟩
      · obtain ⟨skipped, later, rfl, at_place⟩ := ih.1 place member
        exact ⟨character :: skipped, later, rfl, by rw [at_place, List.length_cons]; omega⟩
    · obtain ⟨skipped, later, -, at_place⟩ := ih.1 place member
      simp only
      omega

theorem scan_split {quoted : Quoted} {text : Bytes} {place : Nat × UInt8}
    (member : place ∈ (scan quoted 0 text).1) :
    text = text.take place.1 ++ place.2 :: text.drop (place.1 + 1) := by
  obtain ⟨skipped, rest, rfl, at_place⟩ := (scan_spec quoted 0 text).1 place member
  rw [Nat.zero_add] at at_place
  rw [at_place, List.take_left, List.drop_append, List.drop_eq_nil_of_le (Nat.le_succ _)]
  simp

theorem scan_lt {quoted : Quoted} {text : Bytes} {place : Nat × UInt8}
    (member : place ∈ (scan quoted 0 text).1) : place.1 < text.length := by
  obtain ⟨skipped, rest, rfl, at_place⟩ := (scan_spec quoted 0 text).1 place member
  rw [at_place, List.length_append, List.length_cons]
  omega

def isOpening (byte : UInt8) : Bool := byte == '['.toUInt8 || byte == 0x7b
def isClosing (byte : UInt8) : Bool := byte == ']'.toUInt8 || byte == 0x7d

/-- Where a comment starts outside brackets: at the start of the text or after a space. -/
def commentStart (text : Bytes) (depth : Nat) : List (Nat × UInt8) → Option Nat
  | [] => none
  | (index, character) :: rest =>
    if isOpening character then commentStart text (depth + 1) rest
    else if isClosing character then commentStart text (depth - 1) rest
    else if character = '#'.toUInt8 ∧ depth = 0 ∧ (index = 0 ∨ text[index - 1]? = some space) then some index
    else commentStart text depth rest

def beforeComment (text : Bytes) : Except YamlError Bytes :=
  match commentStart text 0 (scan .bare 0 text).1 with
  | some index => slice text 0 index
  | none => pure text

def stripComment (text : Bytes) : Except YamlError Bytes := do
  let kept ← beforeComment text
  pure ((kept.rdropWhile isBlank).dropWhile fun byte => byte == space)

def findKeyColon (text : Bytes) : Option Nat :=
  ((scan .bare 0 text).1.find? fun place => place.2 == ':'.toUInt8
    && (place.1 + 1 == text.length || text[place.1 + 1]? == some space)).map (·.1)

theorem slice_yields {text : Bytes} {start stop : Nat} (ordered : start ≤ stop) (within : stop ≤ text.length) :
    Yields YamlError.Reported (slice text start stop) (· = (text.take stop).drop start) := by
  rw [slice, if_pos ⟨ordered, within⟩]
  exact rfl

theorem commentStart_mem {text : Bytes} {depth : Nat} {places : List (Nat × UInt8)} {index : Nat}
    (found : commentStart text depth places = some index) : (index, '#'.toUInt8) ∈ places := by
  fun_induction commentStart text depth places with
  | case1 => cases found
  | case2 depth index character rest opening ih => exact List.mem_cons_of_mem _ (ih found)
  | case3 depth index character rest plain closing ih => exact List.mem_cons_of_mem _ (ih found)
  | case4 depth index character rest _ _ sign =>
    cases found
    exact sign.1 ▸ List.mem_cons_self
  | case5 depth index character rest _ _ _ ih => exact List.mem_cons_of_mem _ (ih found)

/-- The value of a text, without the blanks and the comment around it. -/
def Uncommented (text value : Bytes) : Prop :=
  ∃ lead blanks comment, text = lead ++ value ++ blanks ++ comment ∧ (∀ byte ∈ lead, byte = space)
    ∧ (∀ byte ∈ blanks, isBlank byte = true) ∧ (comment = [] ∨ comment.head? = some '#'.toUInt8)

theorem Uncommented.length_le {text value : Bytes} (h : Uncommented text value) : value.length ≤ text.length := by
  obtain ⟨lead, blanks, comment, rfl, -⟩ := h
  simp only [List.length_append]
  omega

theorem beforeComment_yields (text : Bytes) : Yields YamlError.Reported (beforeComment text) fun kept =>
    ∃ comment, text = kept ++ comment ∧ (comment = [] ∨ comment.head? = some '#'.toUInt8) := by
  unfold beforeComment
  split
  · next index found =>
    have member := commentStart_mem found
    refine (slice_yields (Nat.zero_le _) (Nat.le_of_lt (scan_lt member))).mono ?_
    rintro _ rfl
    exact ⟨_, scan_split member, .inr rfl⟩
  · exact Yields.pure ⟨[], (List.append_nil _).symm, .inl rfl⟩

theorem stripComment_yields (text : Bytes) : Yields YamlError.Reported (stripComment text) (Uncommented text) := by
  refine (beforeComment_yields text).bind fun kept ⟨comment, whole, sign⟩ => Yields.pure ?_
  refine ⟨(kept.rdropWhile isBlank).takeWhile fun byte => byte == space, kept.rtakeWhile isBlank, comment, ?_,
    fun byte member => by simpa using List.mem_takeWhile_imp member, fun byte member => List.mem_rtakeWhile_imp member,
    sign⟩
  rw [List.takeWhile_append_dropWhile, List.rdropWhile_append_rtakeWhile, whole]

theorem findKeyColon_split {text : Bytes} {colon : Nat} (found : findKeyColon text = some colon) :
    text = text.take colon ++ ':'.toUInt8 :: text.drop (colon + 1) := by
  obtain ⟨place, chosen, rfl⟩ := Option.map_eq_some_iff.mp found
  have sign := List.find?_some chosen
  simp only [Bool.and_eq_true, beq_iff_eq] at sign
  have split := scan_split (List.mem_of_find?_eq_some chosen)
  rwa [sign.1] at split

theorem findKeyColon_lt {text : Bytes} {colon : Nat} (found : findKeyColon text = some colon) :
    colon < text.length := by
  obtain ⟨place, chosen, rfl⟩ := Option.map_eq_some_iff.mp found
  exact scan_lt (List.mem_of_find?_eq_some chosen)

def unquoteSingle : Bytes → Option Bytes
  | [] => some []
  | character :: rest =>
    if character = apostrophe then
      match rest with
      | next :: after => if next = apostrophe then (unquoteSingle after).map (apostrophe :: ·) else none
      | [] => none
    else (unquoteSingle rest).map (character :: ·)

def escaped (next : UInt8) : Option UInt8 :=
  if next = backslash then some backslash
  else if next = quotation then some quotation
  else if next = 'n'.toUInt8 then some newline
  else if next = 't'.toUInt8 then some tab
  else none

def unquoteDouble (line : Nat) : Bytes → Except YamlError Bytes
  | [] => pure []
  | character :: rest =>
    if character = backslash then
      match rest with
      | [] => throw (.malformed (ascii "dangling escape in double-quoted scalar") line)
      | next :: after =>
        match escaped next with
        | some byte => return byte :: (← unquoteDouble line after)
        | none => throw (.malformed (ascii "unsupported escape in double-quoted scalar") line)
    else if character = quotation then
      throw (.malformed (ascii "stray quote in double-quoted scalar") line)
    else return character :: (← unquoteDouble line rest)

def boundedScalar (dialect : YamlDialect) (result : Bytes) : Except YamlError Bytes :=
  if result.length > dialect.bounds.scalar_bytes then
    throw (.tooLarge (ascii "a scalar exceeds its length limit"))
  else pure result

def parseScalarToken (dialect : YamlDialect) (token : Bytes) (line : Nat) : Except YamlError Bytes :=
  match token.head? with
  | none => throw (.malformed (ascii "empty value where a scalar was expected") line)
  | some first =>
    if first = apostrophe then
      if token.length < 2 ∨ token.getLast? ≠ some apostrophe then
        throw (.malformed (ascii "unterminated single-quoted scalar") line)
      else do
        match unquoteSingle (← slice token 1 (token.length - 1)) with
        | none => throw (.malformed (ascii "stray quote in single-quoted scalar") line)
        | some result => boundedScalar dialect result
    else if first = quotation then
      if token.length < 2 ∨ token.getLast? ≠ some quotation then
        throw (.malformed (ascii "unterminated double-quoted scalar") line)
      else do boundedScalar dialect (← unquoteDouble line (← slice token 1 (token.length - 1)))
    else if token.any fun character => character < 0x20 || character == 0x7f then
      throw (.malformed (ascii "control character in a plain value") line)
    else boundedScalar dialect token

/-- How a double-quoted scalar spells one byte. -/
def Escapes (byte : UInt8) (piece : Bytes) : Prop :=
  (piece = [byte] ∧ byte ≠ backslash ∧ byte ≠ quotation) ∨ ∃ next, piece = [backslash, next] ∧ escaped next = some byte

def doubled (byte : UInt8) : Bytes := if byte = apostrophe then [apostrophe, apostrophe] else [byte]

/-- The token of a scalar, and its text. -/
inductive Token : Bytes → Bytes → Prop where
  | plain {text} (bare : text.head? ≠ some apostrophe ∧ text.head? ≠ some quotation) : Token text text
  | single {text} : Token (apostrophe :: (text.flatMap doubled ++ [apostrophe])) text
  | double {text pieces} (escapes : List.Forall₂ Escapes text pieces) :
    Token (quotation :: (pieces.flatten ++ [quotation])) text

theorem unquoteSingle_doubled {body text : Bytes} (h : unquoteSingle body = some text) : body = text.flatMap doubled := by
  fun_induction unquoteSingle body generalizing text with
  | case1 =>
    cases h
    rfl
  | case2 after ih =>
    obtain ⟨rest, found, rfl⟩ := Option.map_eq_some_iff.mp h
    rw [List.flatMap_cons, ← ih found]
    rfl
  | case3 => cases h
  | case4 => cases h
  | case5 character rest other ih =>
    obtain ⟨later, found, rfl⟩ := Option.map_eq_some_iff.mp h
    rw [List.flatMap_cons, ← ih found, doubled, if_neg other]
    rfl

theorem unquoteDouble_yields (line : Nat) (body : Bytes) :
    Yields YamlError.Reported (unquoteDouble line body) fun text =>
      ∃ pieces, List.Forall₂ Escapes text pieces ∧ body = pieces.flatten := by
  fun_induction unquoteDouble line body with
  | case1 => exact ⟨[], .nil, rfl⟩
  | case2 => trivial
  | case3 next after byte found ih =>
    refine Yields.bind ih fun text ⟨pieces, escapes, whole⟩ => Yields.pure ?_
    exact ⟨[backslash, next] :: pieces, .cons (.inr ⟨next, rfl, found⟩) escapes, by rw [whole]; rfl⟩
  | case4 => trivial
  | case5 => trivial
  | case6 character rest plain unquoted ih =>
    refine Yields.bind ih fun text ⟨pieces, escapes, whole⟩ => Yields.pure ?_
    exact ⟨[character] :: pieces, .cons (.inl ⟨rfl, plain, unquoted⟩) escapes, by rw [whole]; rfl⟩

theorem boundedScalar_yields (dialect : YamlDialect) (result : Bytes) :
    Yields YamlError.Reported (boundedScalar dialect result)
      fun text => text.length ≤ dialect.bounds.scalar_bytes ∧ text = result := by
  unfold boundedScalar
  split
  · trivial
  · next fits => exact ⟨Nat.le_of_not_gt fits, rfl⟩

/-- A text between two marks. -/
theorem between_marks {text : Bytes} {first last : UInt8} (long : 2 ≤ text.length) (starts : text.head? = some first)
    (ends : text.getLast? = some last) :
    text = first :: ((text.take (text.length - 1)).drop 1 ++ [last]) := by
  obtain ⟨rest, rfl⟩ := List.head?_eq_some_iff.mp starts
  obtain ⟨front, whole⟩ := List.getLast?_eq_some_iff.mp ends
  cases front with
  | nil =>
    rw [whole] at long
    exact absurd long (Nat.not_succ_le_self 1)
  | cons byte front =>
    obtain ⟨rfl, rfl⟩ := List.cons.inj whole
    simp

theorem parseScalarToken_yields (dialect : YamlDialect) (token : Bytes) (line : Nat) :
    Yields YamlError.Reported (parseScalarToken dialect token line)
      fun text => text.length ≤ dialect.bounds.scalar_bytes ∧ Token token text := by
  unfold parseScalarToken
  split
  · trivial
  · next first starts =>
    split
    · next quoted =>
      split
      · trivial
      · next marks =>
        obtain ⟨long, ends⟩ := not_or.mp marks
        have whole := between_marks (Nat.not_lt.mp long) (quoted ▸ starts) (not_not.mp ends)
        refine (slice_yields (by omega) (by omega)).bind fun body inner => ?_
        split
        · trivial
        · next text unquoted =>
          refine (boundedScalar_yields dialect text).mono ?_
          rintro _ ⟨short, rfl⟩
          rw [← inner, unquoteSingle_doubled unquoted] at whole
          exact ⟨short, whole ▸ .single⟩
    · split
      · next quoted =>
        split
        · trivial
        · next marks =>
          obtain ⟨long, ends⟩ := not_or.mp marks
          have whole := between_marks (Nat.not_lt.mp long) (quoted ▸ starts) (not_not.mp ends)
          refine (slice_yields (by omega) (by omega)).bind fun body inner => ?_
          refine (unquoteDouble_yields line body).bind fun text ⟨pieces, escapes, spelled⟩ => ?_
          refine (boundedScalar_yields dialect text).mono ?_
          rintro _ ⟨short, rfl⟩
          rw [← inner, spelled] at whole
          exact ⟨short, whole ▸ .double escapes⟩
      · next single double =>
        split
        · trivial
        · refine (boundedScalar_yields dialect token).mono ?_
          rintro _ ⟨short, rfl⟩
          refine ⟨short, .plain ⟨fun same => single ?_, fun same => double ?_⟩⟩
          · exact Option.some.inj (starts.symm.trans same)
          · exact Option.some.inj (starts.symm.trans same)

structure FlowSplit where
  parts : List Bytes := []
  start : Nat := 0
  depth : Nat := 0

def splitAt (body : Bytes) (line : Nat) (split : FlowSplit) (place : Nat × UInt8) :
    Except YamlError FlowSplit :=
  if place.2 = comma ∧ split.depth = 0 then do
    let part ← slice body split.start place.1
    pure { split with parts := split.parts ++ [part], start := place.1 + 1 }
  else if isOpening place.2 then pure { split with depth := split.depth + 1 }
  else if isClosing place.2 then
    if split.depth = 0 then throw (.malformed (ascii "unbalanced flow brackets") line)
    else pure { split with depth := split.depth - 1 }
  else pure split

def splitFlow (body : Bytes) (line : Nat) : Except YamlError (List Bytes) :=
  if body.all isBlank then pure []
  else do
    let (places, last) := scan .bare 0 body
    let split ← places.foldlM (splitAt body line) {}
    let part ← slice body split.start body.length
    if last ≠ .bare ∨ split.depth ≠ 0 then
      throw (.malformed (ascii "unterminated flow collection") line)
    else pure (split.parts ++ [part])

/-- The body is cut at commas into these parts; a blank body has none. -/
def Joined (body : Bytes) (parts : List Bytes) : Prop :=
  (parts = [] ∧ body.all isBlank = true)
    ∨ ∃ first last, parts = first ++ [last] ∧ body = first.flatMap (· ++ [comma]) ++ last

/-- The parts so far are what stands before the start of the next one. -/
def FlowSplit.Reads (body : Bytes) (split : FlowSplit) : Prop :=
  split.start ≤ body.length ∧ body.take split.start = split.parts.flatMap (· ++ [comma])

theorem splitAt_yields {body : Bytes} {line : Nat} {split : FlowSplit} {place : Nat × UInt8}
    (ordered : split.start ≤ place.1) (within : place.1 < body.length)
    (sign : body = body.take place.1 ++ place.2 :: body.drop (place.1 + 1)) (reads : split.Reads body) :
    Yields YamlError.Reported (splitAt body line split place) fun after =>
      after.start ≤ place.1 + 1 ∧ after.Reads body := by
  unfold splitAt
  split
  · next cut =>
    refine (slice_yields ordered (Nat.le_of_lt within)).bind fun part same => Yields.pure ⟨Nat.le_refl _, within, ?_⟩
    have upto : body.take (place.1 + 1) = body.take place.1 ++ [place.2] := by
      conv_lhs => rw [sign]
      rw [List.take_append, List.length_take, Nat.min_eq_left (Nat.le_of_lt within), Nat.add_sub_cancel_left]
      rw [List.take_of_length_le (by rw [List.length_take]; omega)]
      rfl
    have earlier : body.take place.1 = body.take split.start ++ part := by
      have shorter : body.take split.start = (body.take place.1).take split.start := by
        rw [List.take_take, Nat.min_eq_left ordered]
      rw [same, shorter, List.take_append_drop]
    rw [upto, cut.1, earlier, reads.2, List.flatMap_append, List.flatMap_singleton, List.append_assoc]
  · split
    · exact ⟨Nat.le_succ_of_le ordered, reads⟩
    · split
      · split
        · trivial
        · exact ⟨Nat.le_succ_of_le ordered, reads⟩
      · exact ⟨Nat.le_succ_of_le ordered, reads⟩

theorem splitAll_yields {body : Bytes} {line : Nat} {places : List (Nat × UInt8)} {split : FlowSplit}
    (within : ∀ place ∈ places, split.start ≤ place.1 ∧ place.1 < body.length
      ∧ body = body.take place.1 ++ place.2 :: body.drop (place.1 + 1))
    (ascending : places.Pairwise fun a b => a.1 < b.1) (reads : split.Reads body) :
    Yields YamlError.Reported (places.foldlM (splitAt body line) split) (FlowSplit.Reads body) := by
  induction places generalizing split with
  | nil => exact reads
  | cons place rest ih =>
    obtain ⟨below, rest_ascending⟩ := List.pairwise_cons.mp ascending
    obtain ⟨ordered, inside, sign⟩ := within place List.mem_cons_self
    rw [List.foldlM_cons]
    refine (splitAt_yields ordered inside sign reads).bind fun after ⟨next, more⟩ => ih ?_ rest_ascending more
    intro other member
    have above := below other member
    exact ⟨by omega, (within other (List.mem_cons_of_mem _ member)).2⟩

theorem splitFlow_yields (body : Bytes) (line : Nat) :
    Yields YamlError.Reported (splitFlow body line) (Joined body) := by
  unfold splitFlow
  split
  · next blank => exact Yields.pure (.inl ⟨rfl, blank⟩)
  · have begins : FlowSplit.Reads body {} := ⟨Nat.zero_le _, rfl⟩
    refine (splitAll_yields ?_ (scan_spec .bare 0 body).2 begins).bind fun split ⟨ended, reads⟩ => ?_
    · exact fun place member => ⟨Nat.zero_le _, scan_lt member, scan_split member⟩
    · refine (slice_yields ended (Nat.le_refl _)).bind fun part same => ?_
      split
      · trivial
      · refine Yields.pure (.inr ⟨split.parts, part, rfl, ?_⟩)
        rw [← reads, same, List.take_length, List.take_append_drop]

end CkGit.Yaml
