import CkGit.Base.Grammar
import CkGit.Yaml.Model
import Mathlib.Data.List.Nodup

/-!
What the parser of the YAML subset accepts: a tree within the bounds of the
dialect to which every line contributes that is not blank. What it raises is
reported to the reader of the file: no index is out of range and no loop runs
longer than the document.
-/
namespace CkGit.Yaml
open CkGit.Base CkGit.Base.Outcome

/-- All that stands behind a colon or a dash is in the node: as its text, as its parts, or as the
sign of the block scalar below. -/
inductive Spells : Bytes → YamlNode → Prop where
  | scalar {text value content line} (shown : Uncommented text value) (token : Token value content) :
    Spells text (.scalar content line)
  | block {text value folded chomping content line own} (shown : Uncommented text value)
    (sign : blockIndicator value = some (folded, chomping)) :
    Spells text (.blockScalar folded chomping content line own)
  | flowSequence {text body items line own} {parts : List Bytes}
    (shown : Uncommented text ('['.toUInt8 :: (body ++ [']'.toUInt8]))) (joined : Joined body parts)
    (tokens : List.Forall₂ (fun part item => ∃ content, item = YamlNode.scalar content line ∧ Token (trim part) content)
      parts items) : Spells text (.sequence .flow items line own)
  | flowMapping {text body parts entries line own} {cuts : List (Bytes × Bytes)}
    (shown : Uncommented text (0x7b :: (body ++ [0x7d]))) (joined : Joined body parts)
    (cut : parts.map trim = cuts.map fun cut => cut.1 ++ ':'.toUInt8 :: cut.2)
    (keys : entries.map (·.1) = cuts.map fun cut => trim cut.1)
    (below : ∀ place ∈ cuts.zip entries, Spells (trim place.1.2) place.2.2) :
    Spells text (.mapping .flow entries line own)

/-- The text is the key of an entry, a colon and the value, which may stand on the lines below. -/
def IsEntry (text key : Bytes) (value : YamlNode) : Prop :=
  ∃ front rest, text = front ++ ':'.toUInt8 :: rest ∧ key = trim front ∧ (trim rest = [] ∨ Spells (trim rest) value)

/-- What follows a dash is the value of the item or the first entry of a mapping, or nothing where
the item stands on the lines below. -/
def IsItem (text : Bytes) (item : YamlNode) : Prop :=
  trim text = [] ∨ ∃ lead rest, text = lead ++ rest ∧ (∀ byte ∈ lead, byte = space)
    ∧ (Spells rest item ∨ ∃ key value entries line own,
        item = .mapping .block ((key, value) :: entries) line own ∧ IsEntry rest key value)

/-- A text of these lines in their order, with only spaces and line breaks between them. -/
inductive Woven : List Bytes → Bytes → Prop where
  | none : Woven [] []
  | gap {contents text byte} (woven : Woven contents text) (between : byte = space ∨ byte = newline) :
    Woven contents (text ++ [byte])
  | line {contents text} (content : Bytes) (woven : Woven contents text) : Woven (contents ++ [content]) (text ++ content)

/-- The contents of the lines that are text. -/
def contentsOf (body : List RawLine) : List Bytes := (body.filter fun raw => !raw.blank).map (·.content)

/-- The line is in the node or a part of it: as a line of a text, as an item, or as an entry. -/
inductive Contributes : YamlNode → RawLine → Prop where
  | text {folded chomping text start body line}
    (woven : Woven (contentsOf body) text) (member : line ∈ body) :
    Contributes (.blockScalar folded chomping text start (body.map (·.number))) line
  | dash {style items start own line item rest} {place : Nat} (at_place : own[place]? = some line.number)
    (held : items[place]? = some item) (dashed : line.content = '-'.toUInt8 :: rest) (shown : IsItem rest item) :
    Contributes (.sequence style items start own) line
  | item {style items start own line item} (member : item ∈ items) (below : Contributes item line) :
    Contributes (.sequence style items start own) line
  | entry {style entries start own line key value} {place : Nat} (at_place : own[place]? = some line.number)
    (held : entries[place]? = some (key, value)) (shown : IsEntry line.content key value) :
    Contributes (.mapping style entries start own) line
  | value {style entries start own line entry} (member : entry ∈ entries) (below : Contributes entry.2 line) :
    Contributes (.mapping style entries start own) line

def YamlBounds.items (bounds : YamlBounds) : Style → Nat
  | .flow => bounds.flow_sequence_items
  | .block => bounds.block_sequence_items

/-- The levels of blocks that a collection takes. -/
def Style.blocks : Style → Nat
  | .flow => 0
  | .block => 1

structure KeysWithin (bounds : YamlBounds) (entries : List (Bytes × YamlNode)) : Prop where
  count : entries.length ≤ bounds.mapping_entries
  distinct : (entries.map (·.1)).Nodup
  keys : ∀ entry ∈ entries, entry.1 ≠ [] ∧ entry.1.length ≤ bounds.key_bytes

/-- The node is within the bounds, with at most so many block collections and at most so many
collections of either style inside each other. Of the line breaks that a block scalar ends with,
only that of a literal one with the default chomping counts. -/
inductive Within (bounds : YamlBounds) : Nat → Nat → YamlNode → Prop where
  | scalar {blocks levels text line} (short : text.length ≤ bounds.scalar_bytes) :
    Within bounds blocks levels (.scalar text line)
  | blockScalar {blocks levels folded chomping text line own}
    (short : (text.rdropWhile isNewline).length ≤ bounds.block_scalar_bytes)
    (whole : chomping = .strip ∨ (chomping = .clip ∧ folded = false) →
      text.length ≤ bounds.block_scalar_bytes) :
    Within bounds blocks levels (.blockScalar folded chomping text line own)
  | sequence {blocks levels style items line own} (few : items.length ≤ bounds.items style)
    (below : ∀ item ∈ items, Within bounds blocks levels item) :
    Within bounds (blocks + style.blocks) (levels + 1) (.sequence style items line own)
  | mapping {blocks levels style entries line own} (keys : KeysWithin bounds entries)
    (below : ∀ entry ∈ entries, Within bounds blocks levels entry.2) :
    Within bounds (blocks + style.blocks) (levels + 1) (.mapping style entries line own)

theorem Within.mono {bounds : YamlBounds} {blocks levels : Nat} {node : YamlNode}
    (h : Within bounds blocks levels node) (more_blocks more_levels : Nat) :
    Within bounds (blocks + more_blocks) (levels + more_levels) node := by
  induction h with
  | scalar short => exact .scalar short
  | blockScalar short whole => exact .blockScalar short whole
  | sequence few below ih =>
    rw [Nat.add_right_comm _ _ more_blocks, Nat.add_right_comm _ 1]
    exact .sequence few ih
  | mapping keys below ih =>
    rw [Nat.add_right_comm _ _ more_blocks, Nat.add_right_comm _ 1]
    exact .mapping keys ih

/-- One level less is left inside a mapping. -/
theorem Within.inside {bounds : YamlBounds} {blocks levels line : Nat} {style : Style}
    {entries : List (Bytes × YamlNode)} {own : List Nat}
    (h : Within bounds blocks levels (.mapping style entries line own)) :
    ∃ fewer less, levels = less + 1 ∧ ∀ entry ∈ entries, Within bounds fewer less entry.2 := by
  cases h with
  | mapping _ below => exact ⟨_, _, rfl, below⟩

section
variable (dialect : YamlDialect) (lines : List RawLine)

/-- The lines in this range that are not blank were taken. -/
def Covered (first last : Nat) (taken : RawLine → Prop) : Prop :=
  ∀ index, first ≤ index → index < last → ∀ line, lines[index]? = some line → line.blank = false → taken line

/-- A line without its indent and its line break. -/
structure RawLine.Flush (line : RawLine) : Prop where
  unbroken : newline ∉ line.content
  unindented : line.content.head? ≠ some space
  filled : line.blank = false → line.content ≠ []

/-- A parser that began here read this node and all lines up to the cursor. -/
def Placed (blocks levels first : Nat) (node : YamlNode) (after : Nat) : Prop :=
  first ≤ after ∧ Within dialect.bounds blocks levels node ∧ Covered lines first after (Contributes node)

abbrev Safe {α : Type} (parse : Parse α) (pos : Nat) (post : α → Nat → Prop) : Prop :=
  Meets YamlError.Reported parse pos post

variable {dialect lines}

theorem Covered.empty (pos : Nat) (taken : RawLine → Prop) : Covered lines pos pos taken :=
  fun _ from_pos to_pos => absurd to_pos (Nat.not_lt.mpr from_pos)

theorem Covered.mono {first last : Nat} {taken more : RawLine → Prop} (h : Covered lines first last taken)
    (grows : ∀ line, taken line → more line) : Covered lines first last more :=
  fun index from_first to_last line found filled => grows _ (h index from_first to_last line found filled)

theorem Covered.trans {first mid last : Nat} {taken : RawLine → Prop} (h : Covered lines first mid taken)
    (rest : Covered lines mid last taken) : Covered lines first last taken := by
  intro index from_first to_last line found filled
  by_cases early : index < mid
  · exact h index from_first early line found filled
  · exact rest index (Nat.le_of_not_lt early) to_last line found filled

theorem Covered.one {pos : Nat} {line : RawLine} {taken : RawLine → Prop} (found : lines[pos]? = some line)
    (is_taken : taken line) : Covered lines pos (pos + 1) taken := by
  intro index from_pos to_next other other_found _
  obtain rfl : index = pos := by omega
  rw [found] at other_found
  cases other_found
  exact is_taken

theorem Placed.mono {blocks levels first after : Nat} {node : YamlNode}
    (h : Placed dialect lines blocks levels first node after) (more_blocks more_levels : Nat) :
    Placed dialect lines (blocks + more_blocks) (levels + more_levels) first node after :=
  ⟨h.1, h.2.1.mono more_blocks more_levels, h.2.2⟩

/-- A stretch of lines taken from the cursor holds all up to its end. -/
theorem mem_stretch {keeps : RawLine → Bool} {pos index : Nat} {line : RawLine} (from_pos : pos ≤ index)
    (to_end : index < pos + ((lines.drop pos).takeWhile keeps).length)
    (found : lines[index]? = some line) : line ∈ (lines.drop pos).takeWhile keeps := by
  obtain ⟨rest, split⟩ : (lines.drop pos).takeWhile keeps <+: lines.drop pos := List.takeWhile_prefix keeps
  have at_index : (lines.drop pos)[index - pos]? = some line := by
    rw [List.getElem?_drop, Nat.add_sub_cancel' from_pos, found]
  rw [← split, List.getElem?_append_left (by omega)] at at_index
  exact List.mem_of_getElem? at_index

theorem skipBlanks_safe (pos : Nat) (taken : RawLine → Prop) :
    Safe (skipBlanks lines) pos fun _ after => pos ≤ after ∧ Covered lines pos after taken := by
  refine Meets.modify ⟨Nat.le_add_right _ _, fun index from_pos to_end line found filled => ?_⟩
  have blank := List.mem_takeWhile_imp (mem_stretch from_pos to_end found)
  rw [filled] at blank
  cases blank

theorem current_safe (pos : Nat) :
    Safe (current lines) pos fun found after => found = lines[pos]? ∧ after = pos :=
  ⟨rfl, rfl⟩

theorem advance_bind {α : Type} {count pos : Nat} {next : PUnit → Parse α} {p : α → Nat → Prop}
    (rest : Safe (next ⟨⟩) (pos + count) p) : Safe (advance count >>= next) pos p :=
  Meets.bind_modify rest

theorem tooDeep_safe {α : Type} (pos : Nat) (p : α → Nat → Prop) : Safe (tooDeep dialect) pos p := trivial

theorem malformed_safe {α : Type} (message : String) (line pos : Nat) (p : α → Nat → Prop) :
    Safe (malformed message line) pos p := trivial

theorem currentLine_safe {pos : Nat} {line : RawLine} (found : lines[pos]? = some line) :
    Safe (currentLine lines) pos fun first after => line = first ∧ pos = after := by
  refine Meets.bind_get ?_
  rw [found]
  exact ⟨rfl, rfl⟩

theorem getElem?_lt {pos : Nat} {line : RawLine} (found : lines[pos]? = some line) : pos < lines.length :=
  (List.getElem?_eq_some_iff.mp found).1

/-- A loop over a block ends, for each turn takes a line; the lines it passed were taken. -/
theorem siblings_safe {γ : Type} {takes : RawLine → Bool} {read : γ → RawLine → Parse γ}
    (good : γ → Prop) (taken : γ → RawLine → Prop) {first pos turns : Nat} {seen : γ}
    (enough : lines.length - pos < turns) (begins : first ≤ pos) (holds : good seen)
    (covered : Covered lines first pos (taken seen))
    (step : ∀ seen pos line, good seen → lines[pos]? = some line → takes line = true →
      Safe (read seen line) pos fun next after => pos < after ∧ good next
        ∧ (∀ line, taken seen line → taken next line) ∧ Covered lines pos after (taken next)) :
    Safe (siblings lines takes read turns seen) pos fun next after => pos ≤ after ∧ good next
      ∧ Covered lines first after (taken next) := by
  induction turns generalizing pos seen with
  | zero => exact absurd enough (Nat.not_lt_zero _)
  | succ turns ih =>
    refine (skipBlanks_safe pos (taken seen)).bind fun _ start ⟨skipped, blanks⟩ => ?_
    refine (current_safe start).bind fun found after ⟨at_start, same⟩ => ?_
    subst same
    have so_far := covered.trans blanks
    cases found with
    | none => exact Meets.pure ⟨skipped, holds, so_far⟩
    | some line =>
      simp only
      split
      · next taking =>
        refine (step seen after line holds at_start.symm taking).bind fun next rest done => ?_
        obtain ⟨advanced, still, grows, more⟩ := done
        have inside := getElem?_lt at_start.symm
        refine (ih (by omega) (by omega) still ((so_far.mono grows).trans more)).mono ?_
        exact fun last stop ⟨later, final, all⟩ => ⟨by omega, final, all⟩
      · exact Meets.pure ⟨skipped, holds, so_far⟩

theorem forall_concat {α : Type} {p : α → Prop} {items : List α} {last : α} (all : ∀ item ∈ items, p item)
    (holds : p last) : ∀ item ∈ items ++ [last], p item := by
  intro item member
  rcases List.mem_append.mp member with member | member
  · exact all item member
  · exact List.mem_singleton.mp member ▸ holds

def Within.Fields (bounds : YamlBounds) (blocks levels : Nat) (entries : List (Bytes × YamlNode)) : Prop :=
  KeysWithin bounds entries ∧ ∀ entry ∈ entries, Within bounds blocks levels entry.2

theorem fields_empty (bounds : YamlBounds) (blocks levels : Nat) : Within.Fields bounds blocks levels [] :=
  ⟨⟨Nat.zero_le _, List.nodup_nil, by simp⟩, by simp⟩

theorem addEntry_yields {blocks levels : Nat} {entries : List (Bytes × YamlNode)} {key : Bytes}
    {value : YamlNode} {line : Nat} (fields : Within.Fields dialect.bounds blocks levels entries)
    (within : Within dialect.bounds blocks levels value) :
    Yields YamlError.Reported (addEntry dialect entries key value line) fun all =>
      all = entries ++ [(key, value)] ∧ Within.Fields dialect.bounds blocks levels all := by
  unfold addEntry
  split
  · trivial
  · next sized =>
    split
    · trivial
    · split
      · trivial
      · next fresh =>
        split
        · trivial
        · next few =>
          obtain ⟨⟨count, distinct, keys⟩, below⟩ := fields
          simp only [Bool.or_eq_true, not_or, List.isEmpty_iff, decide_eq_true_eq] at sized
          refine ⟨rfl, ⟨?_, ?_, ?_⟩, ?_⟩
          · rw [List.length_append, List.length_singleton]
            omega
          · rw [List.map_append, List.nodup_append]
            refine ⟨distinct, List.nodup_singleton _, ?_⟩
            intro other member last last_member same
            obtain ⟨entry, listed, rfl⟩ := List.mem_map.mp member
            obtain rfl : last = key := by simpa using last_member
            exact fresh (List.any_eq_true.mpr ⟨entry, listed, by simp [same]⟩)
          · exact forall_concat keys ⟨sized.1, Nat.le_of_not_gt sized.2⟩
          · exact forall_concat below within

theorem splitEntry_yields {content : Bytes} {colon : Nat} (inside : colon < content.length) :
    Yields YamlError.Reported (splitEntry content colon) fun entry =>
      entry = (trim (content.take colon), trim (content.drop (colon + 1))) := by
  refine (slice_yields (Nat.zero_le _) (Nat.le_of_lt inside)).bind fun key front => ?_
  refine (slice_yields (by omega) (Nat.le_refl _)).bind fun rest back => Yields.pure ?_
  rw [front, back, List.drop_zero, List.take_length]

/-- A colon is found where the text goes on as without its comment. -/
theorem colon_split {text stripped : Bytes} {colon : Nat} (flush : text.head? ≠ some space)
    (shown : Uncommented text stripped) (found : findKeyColon stripped = some colon) :
    text = text.take colon ++ ':'.toUInt8 :: text.drop (colon + 1) := by
  obtain ⟨lead, blanks, comment, rfl, spaces, -⟩ := shown
  have none_leads : lead = [] := by
    cases lead with
    | nil => rfl
    | cons byte rest => exact absurd (congrArg some (spaces byte List.mem_cons_self)) flush
  subst none_leads
  have inside := findKeyColon_lt found
  have split := findKeyColon_split found
  rw [List.nil_append, List.append_assoc, List.take_append_of_le_length (Nat.le_of_lt inside),
    List.drop_append_of_le_length inside]
  conv_lhs => rw [split]
  rw [List.append_assoc, List.cons_append]

@[simp] theorem rdropWhile_newline (text : Bytes) :
    (text ++ [newline]).rdropWhile isNewline = text.rdropWhile isNewline :=
  List.rdropWhile_concat_pos isNewline text newline (by decide)

/-- The bound holds for the text without the breaks at its end, and for a literal text with one. -/
def Folding.Short (folded : Bool) (limit : Nat) (folding : Folding) : Prop :=
  (folding.text.rdropWhile isNewline).length + (if folded then 0 else 1) ≤ limit

theorem joinLine_short {folded : Bool} {base limit : Nat} {folding : Folding} {raw : RawLine}
    (fits : (joinLine folded base folding raw).text.length ≤ limit) :
    (joinLine folded base folding raw).Short folded limit := by
  have shorter (text : Bytes) : (text.rdropWhile isNewline).length ≤ text.length :=
    (List.rdropWhile_prefix isNewline text).length_le
  cases folded with
  | true => exact Nat.le_trans (shorter _) fits
  | false =>
    simp only [joinLine, Bool.false_and, Bool.false_eq_true, if_false, List.length_append,
      List.length_singleton, Folding.Short, rdropWhile_newline] at fits ⊢
    have dropped := shorter (folding.text ++ List.replicate (raw.indent - base) space ++ raw.content)
    simp only [List.length_append] at dropped
    omega

theorem Woven.spaces {contents : List Bytes} {text : Bytes} (woven : Woven contents text) (count : Nat) :
    Woven contents (text ++ List.replicate count space) := by
  induction count with
  | zero => rwa [List.replicate_zero, List.append_nil]
  | succ count ih =>
    rw [List.replicate_succ', ← List.append_assoc]
    exact ih.gap (.inl rfl)

theorem joinLine_woven {folded : Bool} {base : Nat} {folding : Folding} {raw : RawLine} {contents : List Bytes}
    (woven : Woven contents folding.text) :
    Woven (contents ++ [raw.content]) (joinLine folded base folding raw).text := by
  have joined : Woven contents (if folded && folding.open_text then
      folding.text ++ [if decide (raw.indent > base) then newline else space] else folding.text) := by
    split
    · refine woven.gap ?_
      split
      · exact .inr rfl
      · exact .inl rfl
    · exact woven
  have line := (joined.spaces (raw.indent - base)).line raw.content
  unfold joinLine
  dsimp only
  split
  · exact line
  · exact line.gap (.inr rfl)

/-- Line breaks at the end are dropped from between the lines only. -/
theorem Woven.rdrop {contents : List Bytes} {text : Bytes} (woven : Woven contents text)
    (flush : ∀ content ∈ contents, newline ∉ content ∧ content ≠ []) : Woven contents (text.rdropWhile isNewline) := by
  induction woven with
  | none => exact .none
  | @gap _ text _ woven between ih =>
    rcases between with rfl | rfl
    · rw [List.rdropWhile_concat_neg isNewline text space (by decide)]
      exact woven.gap (.inl rfl)
    · rw [rdropWhile_newline]
      exact ih flush
  | @line contents text content woven ih =>
    obtain ⟨unbroken, filled⟩ := flush content (List.mem_append_right _ (List.mem_singleton_self _))
    obtain ⟨front, last, rfl⟩ := (List.eq_nil_or_concat' content).resolve_left filled
    have kept : ¬ isNewline last = true := fun ends =>
      unbroken (List.mem_append_right _ (List.mem_singleton.mpr (beq_iff_eq.mp ends).symm))
    have same : (text ++ (front ++ [last])).rdropWhile isNewline = text ++ (front ++ [last]) := by
      rw [← List.append_assoc, List.rdropWhile_concat_neg isNewline _ last kept]
    rw [same]
    exact woven.line _

theorem chomp_woven {chomping : Chomping} {folding : Folding} {contents : List Bytes}
    (woven : Woven contents folding.text) (flush : ∀ content ∈ contents, newline ∉ content ∧ content ≠ []) :
    Woven contents (chomp chomping folding) := by
  have closed : Woven contents (if folding.open_text then folding.text ++ [newline] else folding.text) := by
    split
    · exact woven.gap (.inr rfl)
    · exact woven
  cases chomping with
  | keep => exact closed
  | strip => exact closed.rdrop flush
  | clip => exact (closed.rdrop flush).gap (.inr rfl)

/-- The lines done are in the text, and where one of them was text the bound holds. -/
def Folding.Good (folded : Bool) (limit : Nat) (done : List RawLine) (folding : Folding) : Prop :=
  (folding.Short folded limit ∨ ∀ raw ∈ done, raw.blank = true) ∧ Woven (contentsOf done) folding.text

theorem foldLine_yields {folded : Bool} {base : Nat} {done : List RawLine} {folding : Folding} (raw : RawLine)
    (good : folding.Good folded dialect.bounds.block_scalar_bytes done) :
    Yields YamlError.Reported (foldLine dialect folded base folding raw)
      (Folding.Good folded dialect.bounds.block_scalar_bytes (done ++ [raw])) := by
  unfold foldLine
  split
  · next blank =>
    refine Yields.pure ⟨good.1.imp (fun short => ?_) fun blanks other member => ?_, ?_⟩
    · rwa [Folding.Short, rdropWhile_newline]
    · rcases List.mem_append.mp member with earlier | last
      · exact blanks other earlier
      · rwa [List.mem_singleton.mp last]
    · have same : contentsOf (done ++ [raw]) = contentsOf done := by simp [contentsOf, blank]
      rw [same]
      exact good.2.gap (.inr rfl)
  · next filled =>
    split
    · trivial
    · dsimp only
      split
      · trivial
      · next fits =>
        have more : contentsOf (done ++ [raw]) = contentsOf done ++ [raw.content] := by simp [contentsOf, filled]
        exact ⟨.inl (joinLine_short (Nat.le_of_not_gt fits)), more ▸ joinLine_woven good.2⟩

theorem chomp_within {folded : Bool} {chomping : Chomping} {folding : Folding} {limit : Nat}
    (short : folding.Short folded limit) :
    ((chomp chomping folding).rdropWhile isNewline).length ≤ limit
      ∧ (chomping = .strip ∨ (chomping = .clip ∧ folded = false) →
        (chomp chomping folding).length ≤ limit) := by
  have closed : (if folding.open_text then folding.text ++ [newline] else folding.text).rdropWhile isNewline
      = folding.text.rdropWhile isNewline := by
    split
    · exact rdropWhile_newline _
    · rfl
  unfold Folding.Short at short
  unfold chomp
  cases chomping with
  | keep => simp [closed]; omega
  | strip =>
    simp only [closed, List.rdropWhile_idempotent]
    exact ⟨by omega, fun _ => by omega⟩
  | clip =>
    simp only [closed, rdropWhile_newline, List.rdropWhile_idempotent]
    refine ⟨by omega, fun literal => ?_⟩
    obtain rfl : folded = false := by simpa using literal
    simpa using short

theorem parseBlockScalar_safe (flush : ∀ line ∈ lines, line.Flush) (owner_indent line pos blocks levels : Nat)
    (folded : Bool) (chomping : Chomping) :
    Safe (parseBlockScalar dialect lines owner_indent line folded chomping) pos fun node after =>
      Placed dialect lines blocks levels pos node after
        ∧ ∃ content own, node = .blockScalar folded chomping content line own := by
  unfold parseBlockScalar
  refine Meets.bind_get ?_
  refine advance_bind ?_
  split
  · trivial
  · next first found =>
    have filled : first.blank = false := by simpa using List.find?_some found
    have begins : Folding.Good folded dialect.bounds.block_scalar_bytes [] {} := ⟨.inr (by simp), .none⟩
    refine Meets.bind_lift (Yields.foldlM begins fun _ _ raw => foldLine_yields raw) ?_
    rintro folding ⟨sized, woven⟩
    have short := sized.resolve_right fun blanks => by
      rw [blanks first (List.mem_of_find?_eq_some found)] at filled
      cases filled
    obtain ⟨breakless, whole⟩ := chomp_within short
    have text := @chomp_woven chomping folding _ woven fun content member => by
      obtain ⟨raw, kept, rfl⟩ := List.mem_map.mp member
      obtain ⟨inside, text⟩ := List.mem_filter.mp kept
      have own := flush raw (List.mem_of_mem_drop ((List.takeWhile_sublist _).subset inside))
      exact ⟨own.unbroken, own.filled (by simpa using text)⟩
    refine Meets.pure ⟨⟨Nat.le_add_right _ _, .blockScalar breakless whole, ?_⟩, _, _, rfl⟩
    intro index from_pos to_end raw found _
    exact .text text (mem_stretch from_pos to_end found)

/-- The items of a flow sequence are those of the parts done. -/
def ItemsOf (dialect : YamlDialect) (line : Nat) (done : List Bytes) (items : List YamlNode) : Prop :=
  (items.length ≤ dialect.bounds.flow_sequence_items ∧ ∀ item ∈ items, Within dialect.bounds 0 0 item)
    ∧ List.Forall₂ (fun part item => ∃ content, item = YamlNode.scalar content line ∧ Token (trim part) content) done items

theorem flowItem_yields {line : Nat} {done : List Bytes} {items : List YamlNode} (part : Bytes)
    (holds : ItemsOf dialect line done items) :
    Yields YamlError.Reported (flowItem dialect line items part) (ItemsOf dialect line (done ++ [part])) := by
  unfold flowItem
  split
  · trivial
  · next few =>
    refine (parseScalarToken_yields dialect (trim part) line).bind fun text ⟨short, token⟩ => ?_
    refine Yields.pure ⟨⟨?_, forall_concat holds.1.2 (.scalar short)⟩,
      List.rel_append holds.2 (.cons ⟨text, rfl, token⟩ .nil)⟩
    rw [List.length_append, List.length_singleton]
    omega

theorem parseFlowSequence_yields (text : Bytes) (line : Nat) (starts : text.head? = some '['.toUInt8) :
    Yields YamlError.Reported (parseFlowSequence dialect text line) fun node =>
      Within dialect.bounds 0 1 node ∧ ∀ whole, Uncommented whole text → Spells whole node := by
  unfold parseFlowSequence
  split
  · trivial
  · next closed =>
    obtain ⟨long, ends⟩ := not_or.mp closed
    have marks := between_marks (Nat.not_lt.mp long) starts (not_not.mp ends)
    refine (slice_yields (by omega) (Nat.sub_le _ _)).bind fun body inner => ?_
    refine (splitFlow_yields body line).bind fun parts joined => ?_
    refine Yields.bind (m := ItemsOf dialect line parts) ?_ fun items ⟨⟨few, below⟩, tokens⟩ => ?_
    · have begins : ItemsOf dialect line [] [] := ⟨⟨Nat.zero_le _, by simp⟩, .nil⟩
      exact Yields.foldlM begins fun _ _ part => flowItem_yields part
    · refine Yields.pure ⟨@Within.sequence _ 0 0 .flow _ _ _ few below, fun whole shown => ?_⟩
      rw [marks, ← inner] at shown
      exact .flowSequence shown joined tokens

/-- The entries of a flow mapping are those of the parts done, with the lines taken on the way. -/
def FieldsPlaced (dialect : YamlDialect) (lines : List RawLine) (levels first : Nat) (done : List Bytes)
    (entries : List (Bytes × YamlNode)) (after : Nat) : Prop :=
  (first ≤ after ∧ Within.Fields dialect.bounds 0 levels entries
    ∧ Covered lines first after fun line => ∃ entry ∈ entries, Contributes entry.2 line)
  ∧ ∃ cuts : List (Bytes × Bytes), done.map trim = cuts.map (fun cut => cut.1 ++ ':'.toUInt8 :: cut.2)
      ∧ entries.map (·.1) = cuts.map (fun cut => trim cut.1)
      ∧ ∀ place ∈ cuts.zip entries, Spells (trim place.1.2) place.2.2

/-- The parser of a value nests that deep at most, and the node is what the text spells. -/
def Values (dialect : YamlDialect) (lines : List RawLine) (blocks levels : Nat)
    (value : Bytes → Nat → Nat → Parse YamlNode) : Prop :=
  ∀ text line owner pos, Safe (value text line owner) pos fun node after =>
    Placed dialect lines blocks levels pos node after ∧ Spells text node

/-- A value fits wherever more blocks may be. -/
theorem Values.deeper {value : Bytes → Nat → Nat → Parse YamlNode} {levels : Nat}
    (values : Values dialect lines 0 levels value) (more : Nat) : Values dialect lines more levels value := by
  intro text line owner pos
  refine (values text line owner pos).mono fun child after ⟨placed, spelled⟩ => ⟨?_, spelled⟩
  have deeper := placed.mono more 0
  rwa [Nat.zero_add] at deeper

theorem flowEntry_safe {value : Bytes → Nat → Nat → Parse YamlNode} {levels first pos line : Nat}
    {done : List Bytes} {entries : List (Bytes × YamlNode)} (part : Bytes)
    (values : Values dialect lines 0 levels value)
    (holds : FieldsPlaced dialect lines levels first done entries pos) :
    Safe (flowEntry dialect value line entries part) pos
      (FieldsPlaced dialect lines levels first (done ++ [part])) := by
  obtain ⟨⟨begins, fields, covered⟩, cuts, cut, keys, below⟩ := holds
  unfold flowEntry
  split
  · trivial
  · next colon found =>
    refine Meets.bind_lift (splitEntry_yields (findKeyColon_lt found)) ?_
    rintro _ rfl
    refine (values _ line 0 pos).bind ?_
    rintro node after ⟨⟨advanced, within, more⟩, spelled⟩
    refine Meets.lift ((addEntry_yields fields within).mono ?_)
    rintro _ ⟨rfl, all⟩
    have sizes : cuts.length = entries.length := by simpa using (congrArg List.length keys).symm
    refine ⟨⟨by omega, all, (covered.mono ?_).trans (more.mono ?_)⟩,
      cuts ++ [((trim part).take colon, (trim part).drop (colon + 1))], ?_, ?_, ?_⟩
    · rintro number ⟨entry, member, below⟩
      exact ⟨entry, List.mem_append_left _ member, below⟩
    · exact fun number below => ⟨(_, node), List.mem_append_right _ (List.mem_singleton_self _), below⟩
    · rw [List.map_append, List.map_append, cut, List.map_singleton, List.map_singleton, ← findKeyColon_split found]
    · rw [List.map_append, List.map_append, keys]
      rfl
    · rw [List.zip_append sizes]
      exact forall_concat below spelled

theorem parseFlowMapping_safe {value : Bytes → Nat → Nat → Parse YamlNode} {levels : Nat}
    (values : Values dialect lines 0 levels value) (text : Bytes) (line pos : Nat)
    (starts : text.head? = some 0x7b) :
    Safe (parseFlowMapping dialect value text line) pos fun node after =>
      Placed dialect lines 0 (levels + 1) pos node after ∧ ∀ whole, Uncommented whole text → Spells whole node := by
  unfold parseFlowMapping
  split
  · trivial
  · next closed =>
    obtain ⟨long, ends⟩ := not_or.mp closed
    have marks := between_marks (Nat.not_lt.mp long) starts (not_not.mp ends)
    refine Meets.bind_lift (slice_yields (by omega) (Nat.sub_le _ _)) fun body inner => ?_
    refine Meets.bind_lift (splitFlow_yields body line) fun parts joined => ?_
    refine Meets.bind (m := FieldsPlaced dialect lines levels pos parts) ?_ ?_
    · have begins : FieldsPlaced dialect lines levels pos [] [] pos :=
        ⟨⟨Nat.le_refl _, fields_empty _ _ _, Covered.empty _ _⟩, [], rfl, rfl, by simp⟩
      exact Meets.foldlM begins fun _ entries part _ holds => flowEntry_safe part values holds
    · rintro entries after ⟨⟨begins, ⟨keys, below⟩, covered⟩, cuts, cut, named, spelled⟩
      refine Meets.pure ⟨⟨begins, @Within.mapping _ 0 levels .flow _ _ _ keys below, covered.mono ?_⟩, ?_⟩
      · exact fun number ⟨entry, member, contributes⟩ => .value member contributes
      · intro whole shown
        rw [marks, ← inner] at shown
        exact .flowMapping shown joined cut named spelled

section
variable (flush : ∀ line ∈ lines, line.Flush)
include flush

theorem parseValueWith_safe {flowMapping : Bytes → Nat → Parse YamlNode} {levels : Nat}
    (flow : ∀ text line pos, text.head? = some 0x7b → Safe (flowMapping text line) pos fun node after =>
      Placed dialect lines 0 (levels + 1) pos node after ∧ ∀ whole, Uncommented whole text → Spells whole node) :
    Values dialect lines 0 (levels + 1) (parseValueWith dialect lines flowMapping) := by
  intro text line owner_indent pos
  unfold parseValueWith
  refine Meets.bind_lift (stripComment_yields text) fun value shown => ?_
  split
  · next folded chomping sign =>
    refine (parseBlockScalar_safe flush owner_indent line pos 0 (levels + 1) folded chomping).mono ?_
    rintro _ after ⟨placed, content, own, rfl⟩
    exact ⟨placed, .block shown sign⟩
  · split
    · next starts =>
      refine Meets.lift ((parseFlowSequence_yields value line starts).mono fun node ⟨within, spelled⟩ => ?_)
      have deeper := within.mono 0 levels
      rw [Nat.zero_add, Nat.add_comm 1] at deeper
      exact ⟨⟨Nat.le_refl _, deeper, Covered.empty _ _⟩, spelled text shown⟩
    · split
      · next starts =>
        exact (flow value line pos starts).mono fun node after ⟨placed, spelled⟩ => ⟨placed, spelled text shown⟩
      · refine Meets.bind_lift (parseScalarToken_yields dialect value line) fun scalar ⟨short, token⟩ => ?_
        exact Meets.pure ⟨⟨Nat.le_refl _, .scalar short, Covered.empty _ _⟩, .scalar shown token⟩

/-- A value on a line nests no deeper than the room left, a flow sequence in it apart. -/
theorem parseValue_safe (room : Nat) : Values dialect lines 0 (room + 1) (parseValue dialect lines room) := by
  induction room with
  | zero => exact parseValueWith_safe flush fun _ _ pos _ => tooDeep_safe pos _
  | succ room ih => exact parseValueWith_safe flush (parseFlowMapping_safe ih)

end

theorem getElem?_before {α : Type} {items more : List α} {place : Nat} {item : α} (held : items[place]? = some item) :
    (items ++ more)[place]? = some item := by
  rw [List.getElem?_append_left (List.getElem?_eq_some_iff.mp held).1, held]

def Entries.Taken (seen : Entries) (line : RawLine) : Prop :=
  (∃ (place : Nat) (key : Bytes) (value : YamlNode), seen.own[place]? = some line.number ∧ seen.entries[place]? = some (key, value)
    ∧ IsEntry line.content key value)
  ∨ ∃ entry ∈ seen.entries, Contributes entry.2 line

/-- An entry with this text was read at this line. -/
def Entries.Adds (seen next : Entries) (content : Bytes) (number : Nat) : Prop :=
  ∃ key value, next = ⟨seen.entries ++ [(key, value)], seen.own ++ [number]⟩ ∧ IsEntry content key value

theorem Entries.Adds.taken {seen next : Entries} {content : Bytes} {number : Nat} (adds : seen.Adds next content number)
    (aligned : seen.own.length = seen.entries.length) :
    next.own.length = next.entries.length ∧ (∀ line, seen.Taken line → next.Taken line)
      ∧ ∀ line : RawLine, line.number = number → line.content = content → next.Taken line := by
  obtain ⟨key, value, rfl, shown⟩ := adds
  refine ⟨by simp [aligned], ?_, ?_⟩
  · rintro line (⟨place, key, value, at_place, held, shown⟩ | ⟨entry, member, below⟩)
    · exact .inl ⟨place, key, value, getElem?_before at_place, getElem?_before held, shown⟩
    · exact .inr ⟨entry, List.mem_append_left _ member, below⟩
  · rintro line rfl rfl
    exact .inl ⟨seen.own.length, key, value, List.getElem?_concat_length, by rw [aligned, List.getElem?_concat_length],
      shown⟩

section
variable {node : Nat → Parse YamlNode} {value : Bytes → Nat → Nat → Parse YamlNode} {blocks levels : Nat}
  (nodes : ∀ min_indent pos, Safe (node min_indent) pos (Placed dialect lines blocks levels pos))
  (values : Values dialect lines blocks levels value)
include nodes values

theorem readMappingEntry_safe {seen : Entries} (indent : Nat) (content : Bytes) (line pos : Nat)
    (unindented : content.head? ≠ some space) (fields : Within.Fields dialect.bounds blocks levels seen.entries) :
    Safe (readMappingEntry dialect node value indent seen content line) pos fun next after =>
      pos ≤ after ∧ Within.Fields dialect.bounds blocks levels next.entries ∧ seen.Adds next content line
        ∧ Covered lines pos after next.Taken := by
  unfold readMappingEntry
  refine Meets.bind_lift (stripComment_yields content) fun stripped shown => ?_
  split
  · trivial
  · next colon found =>
    have split := colon_split unindented shown found
    refine Meets.bind_lift (splitEntry_yields (Nat.lt_of_lt_of_le (findKeyColon_lt found) shown.length_le)) ?_
    rintro _ rfl
    refine Meets.bind (m := fun child after => Placed dialect lines blocks levels pos child after
      ∧ IsEntry content (trim (content.take colon)) child) ?_ ?_
    · unfold entryValue
      split
      · next empty =>
        refine (nodes (indent + 1) pos).mono fun child after placed => ⟨placed, _, _, split, rfl, .inl ?_⟩
        exact List.isEmpty_iff.mp empty
      · refine (values _ line indent pos).mono ?_
        rintro child after ⟨placed, spelled⟩
        exact ⟨placed, _, _, split, rfl, .inr spelled⟩
    · rintro child after ⟨⟨advanced, within, covered⟩, entry⟩
      refine Meets.bind_lift (addEntry_yields fields within) ?_
      rintro _ ⟨rfl, all⟩
      refine Meets.pure ⟨advanced, all, ⟨_, child, rfl, entry⟩, covered.mono fun number below => ?_⟩
      exact .inr ⟨(_, child), List.mem_append_right _ (List.mem_singleton_self _), below⟩

theorem mappingEntries_safe (flush : ∀ line ∈ lines, line.Flush) {seen : Entries} {first pos : Nat} (indent : Nat)
    (begins : first ≤ pos) (fields : Within.Fields dialect.bounds blocks levels seen.entries)
    (aligned : seen.own.length = seen.entries.length) (covered : Covered lines first pos seen.Taken) :
    Safe (mappingEntries dialect lines node value indent seen) pos fun next after => pos ≤ after
      ∧ (Within.Fields dialect.bounds blocks levels next.entries ∧ next.own.length = next.entries.length
          ∧ seen.entries <+: next.entries) ∧ Covered lines first after next.Taken := by
  refine siblings_safe (fun next : Entries => Within.Fields dialect.bounds blocks levels next.entries
    ∧ next.own.length = next.entries.length ∧ seen.entries <+: next.entries)
    Entries.Taken (by omega) begins ⟨fields, aligned, List.prefix_refl _⟩ covered fun seen pos line holds found _ => ?_
  obtain ⟨fields, aligned, grown⟩ := holds
  have unindented := (flush line (List.mem_of_getElem? found)).unindented
  refine advance_bind ?_
  refine (readMappingEntry_safe nodes values indent line.content line.number (pos + 1) unindented fields).mono ?_
  rintro next after ⟨advanced, all, adds, more⟩
  obtain ⟨still, grows, own⟩ := adds.taken aligned
  obtain ⟨key, value, rfl, -⟩ := adds
  exact ⟨by omega, ⟨all, still, grown.trans (List.prefix_append _ _)⟩, grows,
    (Covered.one found (own line rfl rfl)).trans more⟩

omit nodes values in
theorem mapping_placed {seen : Entries} {first after line : Nat} (begins : first ≤ after)
    (fields : Within.Fields dialect.bounds blocks levels seen.entries)
    (covered : Covered lines first after seen.Taken) :
    Placed dialect lines (blocks + 1) (levels + 1) first (.mapping .block seen.entries line seen.own)
      after := by
  refine ⟨begins, @Within.mapping _ blocks levels .block _ _ _ fields.1 fields.2, covered.mono ?_⟩
  rintro number (⟨place, key, value, at_place, held, shown⟩ | ⟨entry, member, below⟩)
  · exact .entry at_place held shown
  · exact .value member below

theorem parseBlockMapping_safe (flush : ∀ line ∈ lines, line.Flush) {pos : Nat} {line : RawLine} (indent : Nat)
    (found : lines[pos]? = some line) :
    Safe (parseBlockMapping dialect lines node value indent) pos
      (Placed dialect lines (blocks + 1) (levels + 1) pos) := by
  unfold parseBlockMapping
  refine (currentLine_safe found).bind ?_
  rintro _ _ ⟨rfl, rfl⟩
  refine (mappingEntries_safe nodes values flush indent (Nat.le_refl _) (fields_empty _ _ _) rfl
    (Covered.empty _ _)).bind fun seen after ⟨advanced, ⟨fields, _⟩, covered⟩ => ?_
  split
  · exact malformed_safe _ _ _ _
  · exact Meets.pure (mapping_placed advanced fields covered)

/-- The first entry is the seed; the lines below it are in the mapping. -/
theorem parseSeededMapping_safe (flush : ∀ line ∈ lines, line.Flush) {pos : Nat} {line : RawLine} (indent : Nat)
    (seed : Bytes) (unindented : seed.head? ≠ some space) :
    Safe (parseSeededMapping dialect lines node value indent seed line.number) pos fun child after =>
      pos < after ∧ Placed dialect lines (blocks + 1) (levels + 1) (pos + 1) child after
        ∧ ∃ key value entries line own, child = .mapping .block ((key, value) :: entries) line own
          ∧ IsEntry seed key value := by
  unfold parseSeededMapping
  refine advance_bind ?_
  refine (readMappingEntry_safe nodes values indent seed line.number (pos + 1) unindented
    (fields_empty _ _ _)).bind fun first mid ⟨advanced, fields, adds, more⟩ => ?_
  obtain ⟨aligned, -⟩ := adds.taken rfl
  obtain ⟨key, value, rfl, shown⟩ := adds
  refine (mappingEntries_safe nodes values flush indent advanced fields aligned more).bind ?_
  rintro seen after ⟨later, ⟨all, _, rest, grown⟩, covered⟩
  exact Meets.pure ⟨by omega, mapping_placed (by omega) all covered, key, value, rest, _, _,
    by rw [← grown]; rfl, shown⟩

end

/-- The parsers of a level with this room. -/
structure LevelSafe (dialect : YamlDialect) (lines : List RawLine) (below : Level) (room : Nat) : Prop where
  node : ∀ min_indent pos, Safe (below.node min_indent) pos (Placed dialect lines room (room + 2) pos)
  seeded : ∀ indent seed pos (line : RawLine), seed.head? ≠ some space →
    Safe (below.seeded indent seed line.number) pos fun child after =>
      pos < after ∧ Placed dialect lines room (room + 2) (pos + 1) child after
        ∧ ∃ key value entries line own, child = .mapping .block ((key, value) :: entries) line own
          ∧ IsEntry seed key value
  value : Values dialect lines 0 (room + 1) below.value

def Items.Taken (seen : Items) (line : RawLine) : Prop :=
  (∃ (place : Nat) (item : YamlNode) (rest : Bytes), seen.own[place]? = some line.number ∧ seen.items[place]? = some item
    ∧ line.content = '-'.toUInt8 :: rest ∧ IsItem rest item)
  ∨ ∃ item ∈ seen.items, Contributes item line

def Items.Good (bounds : YamlBounds) (room : Nat) (seen : Items) : Prop :=
  (seen.items.length ≤ bounds.block_sequence_items ∧ ∀ item ∈ seen.items, Within bounds room (room + 2) item)
    ∧ seen.own.length = seen.items.length

theorem parseSequenceItem_safe {below : Level} {room pos : Nat} {line : RawLine} (indent : Nat)
    (safe : LevelSafe dialect lines below room) (dashed : startsWithDash line = true) :
    Safe (parseSequenceItem below indent line) pos fun item after =>
      pos < after ∧ Within dialect.bounds room (room + 2) item
        ∧ (∃ rest, line.content = '-'.toUInt8 :: rest ∧ IsItem rest item)
        ∧ Covered lines (pos + 1) after (Contributes item) := by
  obtain ⟨rest, content⟩ : ∃ rest, line.content = '-'.toUInt8 :: rest := by
    simp only [startsWithDash, Bool.and_eq_true, beq_iff_eq] at dashed
    exact List.head?_eq_some_iff.mp dashed.1
  unfold parseSequenceItem
  refine Meets.bind_lift (slice_yields (by rw [content]; simp) (Nat.le_refl _)) ?_
  rintro _ rfl
  have behind : (line.content.take line.content.length).drop 1 = rest := by rw [List.take_length, content]; rfl
  rw [behind]
  split
  · next empty =>
    refine advance_bind ?_
    refine (safe.node (indent + 1) (pos + 1)).mono fun item after ⟨advanced, within, covered⟩ => ?_
    exact ⟨by omega, within, ⟨rest, content, .inl (List.isEmpty_iff.mp empty)⟩, covered⟩
  · split
    · exact malformed_safe _ _ _ _
    · refine Meets.bind_lift (slice_yields (List.takeWhile_sublist _).length_le (Nat.le_refl _)) ?_
      rintro _ rfl
      have text : (rest.take rest.length).drop (rest.takeWhile fun byte => byte == space).length
          = rest.dropWhile fun byte => byte == space := by
        have cut := congrArg (List.drop (rest.takeWhile fun byte => byte == space).length)
          (List.takeWhile_append_dropWhile (p := fun byte => byte == space) (l := rest))
        rw [List.take_length, ← cut, List.drop_left]
      rw [text]
      have unindented : (rest.dropWhile fun byte => byte == space).head? ≠ some space := fun starts => by
        have kept := List.head?_dropWhile_not (fun byte => byte == space) rest
        rw [starts] at kept
        simp at kept
      refine Meets.bind_lift (stripComment_yields _) fun stripped _ => ?_
      split
      · refine (safe.seeded _ _ pos line unindented).mono ?_
        rintro child after ⟨advanced, ⟨_, within, covered⟩, first⟩
        refine ⟨advanced, within, ⟨rest, content, .inr ⟨_, _, List.takeWhile_append_dropWhile.symm, ?_, .inr first⟩⟩,
          covered⟩
        exact fun byte member => by simpa using List.mem_takeWhile_imp member
      · refine advance_bind ?_
        refine (safe.value _ line.number line.indent (pos + 1)).mono ?_
        rintro child after ⟨⟨advanced, within, covered⟩, spelled⟩
        have deeper := within.mono room 1
        rw [Nat.zero_add] at deeper
        refine ⟨by omega, deeper, ⟨rest, content, .inr ⟨_, _, List.takeWhile_append_dropWhile.symm, ?_, .inl spelled⟩⟩,
          covered⟩
        exact fun byte member => by simpa using List.mem_takeWhile_imp member

theorem readSequenceItem_safe {below : Level} {room pos : Nat} {line : RawLine} {seen : Items}
    (indent : Nat) (safe : LevelSafe dialect lines below room) (holds : seen.Good dialect.bounds room)
    (found : lines[pos]? = some line) (dashed : startsWithDash line = true) :
    Safe (readSequenceItem dialect below indent seen line) pos fun next after => pos < after
      ∧ next.Good dialect.bounds room ∧ (∀ line, seen.Taken line → next.Taken line)
      ∧ Covered lines pos after next.Taken := by
  unfold readSequenceItem
  split
  · trivial
  · next few =>
    refine (parseSequenceItem_safe indent safe dashed).bind ?_
    rintro item after ⟨advanced, within, ⟨rest, content, shown⟩, covered⟩
    obtain ⟨⟨_, below⟩, aligned⟩ := holds
    refine Meets.pure ⟨advanced, ⟨⟨?_, forall_concat below within⟩, by simp [aligned]⟩, ?_, ?_⟩
    · rw [List.length_append, List.length_singleton]
      omega
    · rintro line (⟨place, other, rest, at_place, held, shown⟩ | ⟨other, member, below⟩)
      · exact .inl ⟨place, other, rest, getElem?_before at_place, getElem?_before held, shown⟩
      · exact .inr ⟨other, List.mem_append_left _ member, below⟩
    · refine (Covered.one found ?_).trans (covered.mono fun number below => ?_)
      · refine .inl ?_
        exact ⟨seen.own.length, item, rest, List.getElem?_concat_length, by rw [aligned, List.getElem?_concat_length],
          content, shown⟩
      · exact .inr ⟨item, List.mem_append_right _ (List.mem_singleton_self _), below⟩

theorem parseBlockSequence_safe {below : Level} {room pos : Nat} {line : RawLine} (indent : Nat)
    (safe : LevelSafe dialect lines below room) (found : lines[pos]? = some line) :
    Safe (parseBlockSequence dialect lines below indent) pos
      (Placed dialect lines (room + 1) (room + 3) pos) := by
  unfold parseBlockSequence
  refine (currentLine_safe found).bind ?_
  rintro _ _ ⟨rfl, rfl⟩
  refine Meets.bind (siblings_safe (fun seen : Items => seen.Good dialect.bounds room)
    Items.Taken (by omega) (Nat.le_refl _) ⟨⟨Nat.zero_le _, by simp⟩, rfl⟩ (Covered.empty _ _)
    fun seen pos line holds found takes => ?_) fun seen after ⟨advanced, ⟨⟨few, below⟩, _⟩, covered⟩ => ?_
  · simp only [Bool.and_eq_true] at takes
    exact readSequenceItem_safe indent safe holds found takes.2
  · split
    · exact malformed_safe _ _ _ _
    · refine Meets.pure ⟨advanced, @Within.sequence _ room (room + 2) .block _ _ _ few below, covered.mono ?_⟩
      rintro number (⟨place, item, rest, at_place, held, content, shown⟩ | ⟨item, member, contributes⟩)
      · exact .dash at_place held content shown
      · exact .item member contributes

theorem parseBlockNodeWith_safe {sequence mapping : Nat → Parse YamlNode} {blocks levels : Nat}
    (sequences : ∀ indent pos line, lines[pos]? = some line →
      Safe (sequence indent) pos (Placed dialect lines blocks levels pos))
    (mappings : ∀ indent pos line, lines[pos]? = some line →
      Safe (mapping indent) pos (Placed dialect lines blocks levels pos)) (min_indent pos : Nat) :
    Safe (parseBlockNodeWith lines sequence mapping min_indent) pos
      (Placed dialect lines blocks levels pos) := by
  have from_start {start : Nat} (skipped : pos ≤ start) (child : YamlNode)
      (blanks : Covered lines pos start (Contributes child)) (after : Nat)
      (placed : Placed dialect lines blocks levels start child after) :
      Placed dialect lines blocks levels pos child after :=
    ⟨Nat.le_trans skipped placed.1, placed.2.1, blanks.trans placed.2.2⟩
  unfold parseBlockNodeWith
  refine (skipBlanks_safe pos fun _ => False).bind fun _ start ⟨skipped, blanks⟩ => ?_
  refine (current_safe start).bind fun found after ⟨at_start, same⟩ => ?_
  subst same
  have unread (child : YamlNode) : Covered lines pos after (Contributes child) :=
    blanks.mono fun _ none => none.elim
  cases found with
  | none => exact malformed_safe _ _ _ _
  | some line =>
    simp only
    split
    · exact malformed_safe _ _ _ _
    · split
      · exact (sequences line.indent after line at_start.symm).mono fun child =>
          from_start skipped child (unread child)
      · exact (mappings line.indent after line at_start.symm).mono fun child =>
          from_start skipped child (unread child)

section
variable (flush : ∀ line ∈ lines, line.Flush)
include flush

variable (dialect) in
theorem level_safe (room : Nat) : LevelSafe dialect lines (level dialect lines room) room := by
  induction room with
  | zero =>
    refine ⟨?_, fun _ _ pos _ _ => tooDeep_safe pos _, parseValue_safe flush 0⟩
    exact parseBlockNodeWith_safe (fun _ pos _ _ => tooDeep_safe pos _) fun _ pos _ _ => tooDeep_safe pos _
  | succ room ih =>
    have values := (@parseValue_safe dialect lines flush (room + 1)).deeper room
    refine ⟨?_, ?_, parseValue_safe flush (room + 1)⟩
    · exact parseBlockNodeWith_safe
        (fun indent pos line found => parseBlockSequence_safe indent ih found)
        fun indent pos line found => parseBlockMapping_safe ih.node values flush indent found
    · exact fun indent seed pos line unindented =>
        parseSeededMapping_safe ih.node values flush indent seed unindented

theorem parseRoot_safe {pos : Nat} {line : RawLine} (found : lines[pos]? = some line) :
    Safe (parseRoot dialect lines) pos (Placed dialect lines dialect.bounds.nesting_depth
      (dialect.bounds.nesting_depth + 2) pos) := by
  unfold parseRoot
  split
  · exact tooDeep_safe pos _
  · next room depth =>
    rw [depth]
    exact parseBlockMapping_safe (level_safe dialect flush room).node
      ((parseValue_safe flush (room + 1)).deeper room) flush 0 found

variable (dialect) in
theorem parseDocument_safe : Safe (parseDocument dialect lines) 0 fun root _ =>
    Within dialect.bounds dialect.bounds.nesting_depth (dialect.bounds.nesting_depth + 2) root
      ∧ ∀ line ∈ lines, line.blank = false → Contributes root line := by
  unfold parseDocument
  refine (skipBlanks_safe 0 fun _ => False).bind fun _ start ⟨_, blanks⟩ => ?_
  refine (current_safe start).bind fun found after ⟨at_start, same⟩ => ?_
  subst same
  cases found with
  | none => trivial
  | some line =>
    simp only
    split
    · exact malformed_safe _ _ _ _
    · refine (parseRoot_safe flush at_start.symm).bind fun root last ⟨_, within, covered⟩ => ?_
      refine (skipBlanks_safe last fun _ => False).bind fun _ stop ⟨_, rest⟩ => ?_
      refine (current_safe stop).bind fun found after ⟨at_stop, same⟩ => ?_
      cases found with
      | some line => trivial
      | none =>
        refine Meets.pure ⟨within, fun line member filled => ?_⟩
        obtain ⟨index, inside, found⟩ := List.getElem_of_mem member
        have all := ((blanks.mono fun _ none => none.elim).trans covered).trans
          (rest.mono fun _ none => none.elim)
        have end_reached := List.getElem?_eq_none_iff.mp at_stop.symm
        exact all index (Nat.zero_le _) (by omega) line
          (List.getElem?_eq_some_iff.mpr ⟨inside, found⟩) filled

end

/-- The line of the document: its indent and its content; blank is without text or a comment. -/
structure RawLine.Of (line : RawLine) (text : Bytes) : Prop where
  whole : ∃ ending, text = List.replicate line.indent space ++ line.content ++ ending
    ∧ (ending = [] ∨ ending = [carriage])
  unindented : line.content.head? ≠ some space
  blank : line.blank = (line.content.isEmpty || line.content.head? == some '#'.toUInt8)

theorem RawLine.Of.flush {line : RawLine} {text : Bytes} (of : line.Of text) (unbroken : newline ∉ text) :
    line.Flush := by
  obtain ⟨ending, rfl, -⟩ := of.whole
  refine ⟨fun inside => unbroken (by simp [inside]), of.unindented, ?_⟩
  intro filled empty
  rw [of.blank, empty] at filled
  cases filled

theorem splitLine_yields (number : Nat) (last : Bool) (text : Bytes) :
    Yields YamlError.Reported (splitLine dialect number last text) fun line =>
      line.number = number ∧ line.Of text := by
  unfold splitLine
  split
  · trivial
  · dsimp only
    split
    · trivial
    · split
      · trivial
      · have cut := (withoutReturn last text).takeWhile_append_dropWhile (p := fun byte => byte == space)
        have indent : (withoutReturn last text).takeWhile (fun byte => byte == space)
            = List.replicate ((withoutReturn last text).length
              - ((withoutReturn last text).dropWhile fun byte => byte == space).length) space := by
          refine List.eq_replicate_iff.mpr ⟨?_, fun byte member => by simpa using List.mem_takeWhile_imp member⟩
          have lengths := congrArg List.length cut
          rw [List.length_append] at lengths
          omega
        refine Yields.pure ⟨rfl, ⟨?_, fun starts => ?_, rfl⟩⟩
        · rw [indent] at cut
          dsimp only
          rw [cut]
          unfold withoutReturn
          split
          · next ends =>
            obtain ⟨front, whole⟩ := List.getLast?_eq_some_iff.mp (by simpa using (Bool.and_eq_true_iff.mp ends).2)
            exact ⟨[carriage], by rw [whole, List.dropLast_concat]; rfl, .inr rfl⟩
          · exact ⟨[], (List.append_nil _).symm, .inl rfl⟩
        · have kept := List.head?_dropWhile_not (fun byte => byte == space) (withoutReturn last text)
          rw [starts] at kept
          simp at kept

theorem splitFrom_yields (count : Nat) (texts : List Bytes) :
    Yields YamlError.Reported (splitFrom dialect count texts) fun lines =>
      lines.map (·.number) = List.range' (count + 1) texts.length ∧ List.Forall₂ RawLine.Of lines texts := by
  induction texts generalizing count with
  | nil => exact Yields.pure ⟨rfl, .nil⟩
  | cons text rest ih =>
    unfold splitFrom
    split
    · trivial
    · refine (splitLine_yields (count + 1) rest.isEmpty text).bind fun line ⟨numbered, of⟩ => ?_
      refine (ih (count + 1)).bind fun lines ⟨numbers, all⟩ => Yields.pure ⟨?_, .cons of all⟩
      rw [List.map_cons, numbered, numbers, List.length_cons, List.range'_succ]

end

def smallDialect (nesting_depth : Nat) : YamlDialect where
  bounds := ⟨100, 20, 10, 5, 5, 5, 3, 3, 3, nesting_depth⟩
  prefix_text := ascii "fixture"
  document := ascii "the fixture"

def nestsThrice : Except YamlError YamlNode → Bool
  | .ok (.mapping _ [(_, .mapping _ [(_, .sequence _ _ _ _)] _ _)] _ _) => true
  | _ => false

def blockText : Except YamlError YamlNode → Option Bytes
  | .ok (.mapping _ [(_, .blockScalar _ _ text _ _)] _ _) => some text
  | _ => none

end CkGit.Yaml
