import CkGit.Highlight.Boundaries
import CkGit.Highlight.Steps

/-!
# Highlighting only adds spans

The HTML is the escaped source with a span around some pieces of its lines, and
without the tags it is the escaped source.
-/
namespace CkGit.Highlight
open CkGit.Base CkGit.Ci Prog

variable {s source html piece : Bytes} {tokens : List Token}

/-- The HTML of a text: each byte escaped, or a span around a piece of one line. -/
inductive Marked : Bytes → Bytes → Prop
  | done : Marked [] []
  | plain (byte : UInt8) {html source : Bytes} (later : Marked html source) :
      Marked (escapeByte byte ++ html) (byte :: source)
  | span (kind : TokenKind) {piece html source : Bytes} (filled : piece ≠ []) (oneLine : newline ∉ piece)
      (later : Marked html source) : Marked (openTag kind ++ escaped piece ++ closeTag ++ html) (piece ++ source)

/-- What is left once every tag is dropped, from inside of a tag or from outside. -/
def withoutTags (tag : Bool) : Bytes → Bytes
  | [] => []
  | byte :: rest =>
    if tag then withoutTags (byte != '>'.toUInt8) rest
    else if byte = '<'.toUInt8 then withoutTags true rest
    else byte :: withoutTags false rest

theorem escapeByte_plain (byte : UInt8) : '<'.toUInt8 ∉ escapeByte byte := by
  unfold escapeByte
  by_cases opens : byte = '<'.toUInt8
  · rw [opens]
    decide
  · have other : '<'.toUInt8 ≠ byte := fun same => opens same.symm
    repeat' split
    all_goals first | decide | simpa using other

theorem escaped_plain (text : Bytes) : '<'.toUInt8 ∉ escaped text := by
  intro member
  obtain ⟨byte, _, found⟩ := List.mem_flatMap.mp member
  exact escapeByte_plain byte found

theorem withoutTags_plain (plain : '<'.toUInt8 ∉ piece) : withoutTags false (piece ++ html) = piece ++ withoutTags false html := by
  induction piece with
  | nil => rfl
  | cons byte rest ih =>
    have first : byte ≠ '<'.toUInt8 := fun same => plain (same ▸ .head _)
    have later := ih fun member => plain (.tail _ member)
    simp only [List.cons_append, withoutTags, Bool.false_eq_true, if_false, if_neg first, later]

theorem withoutTags_inside (body : '>'.toUInt8 ∉ piece) :
    withoutTags true (piece ++ '>'.toUInt8 :: html) = withoutTags false html := by
  induction piece with
  | nil => rfl
  | cons byte rest ih =>
    have first : (byte != '>'.toUInt8) = true := bne_iff_ne.mpr fun same => body (same ▸ .head _)
    have later := ih fun member => body (.tail _ member)
    simp only [List.cons_append, withoutTags, if_true, first, later]

theorem withoutTags_tag (body : '>'.toUInt8 ∉ piece) :
    withoutTags false ('<'.toUInt8 :: piece ++ '>'.toUInt8 :: html) = withoutTags false html :=
  withoutTags_inside body

theorem withoutTags_openTag (kind : TokenKind) (html : Bytes) : withoutTags false (openTag kind ++ html) = withoutTags false html := by
  have shape : ∃ body, '>'.toUInt8 ∉ body ∧ openTag kind = '<'.toUInt8 :: body ++ ['>'.toUInt8] := by
    refine ⟨(openTag kind).tail.dropLast, ?_⟩
    cases kind <;> decide
  obtain ⟨body, closed, same⟩ := shape
  rw [same, List.append_assoc]
  exact withoutTags_tag closed

theorem withoutTags_closeTag (html : Bytes) : withoutTags false (closeTag ++ html) = withoutTags false html :=
  withoutTags_tag (show '>'.toUInt8 ∉ ascii "/span" by decide)

/-- Without the tags, the HTML is the escaped source. -/
theorem Marked.withoutTags (marked : Marked html source) : Highlight.withoutTags false html = escaped source := by
  induction marked with
  | done => rfl
  | plain byte later ih => rw [withoutTags_plain (escapeByte_plain byte), ih, escaped, escaped, List.flatMap_cons]
  | span kind filled oneLine later ih =>
    rw [List.append_assoc, List.append_assoc, withoutTags_openTag, withoutTags_plain (escaped_plain _),
      withoutTags_closeTag, ih, escaped, escaped, escaped, List.flatMap_append]

theorem Marked.escape (text : Bytes) (later : Marked html source) : Marked (escaped text ++ html) (text ++ source) := by
  induction text with
  | nil => exact later
  | cons byte rest ih =>
    rw [escaped, List.flatMap_cons, List.append_assoc]
    exact .plain byte ih

theorem Marked.escaped (text : Bytes) : Marked (escaped text) text := by
  simpa using Marked.escape text .done

theorem Marked.spanOf (kind : TokenKind) (oneLine : newline ∉ piece) (later : Marked html source) :
    Marked (spanOf kind piece ++ html) (piece ++ source) := by
  unfold Highlight.spanOf
  split
  · next empty =>
    rw [List.isEmpty_iff.mp empty]
    exact later
  · next filled => exact .span kind (by simpa using filled) oneLine later

theorem newline_not_mem_takeWhile (text : Bytes) : newline ∉ text.takeWhile (· != newline) := by
  intro member
  simpa using List.mem_takeWhile_imp member

theorem escapeByte_newline : escapeByte newline = [newline] := by decide

/-- A span for each line, and the line breaks between them as they are. -/
theorem Marked.lineSpans (kind : TokenKind) (text : Bytes) (later : Marked html source) :
    Marked (lineSpans kind text ++ html) (text ++ source) := by
  induction text using lineSpans.induct with
  | case1 text none =>
    have whole := List.takeWhile_append_dropWhile (p := (· != newline)) (l := text)
    rw [none, List.append_nil] at whole
    rw [Highlight.lineSpans, none]
    exact .spanOf kind (whole ▸ newline_not_mem_takeWhile text) later
  | case2 text first rest split ih =>
    have whole := List.takeWhile_append_dropWhile (p := (· != newline)) (l := text)
    have broken : first = newline := by
      have stopped := List.head_dropWhile_not (· != newline) (l := text) (by simp [split])
      simpa [split] using stopped
    rw [split, broken] at whole
    have line := Marked.spanOf kind (newline_not_mem_takeWhile text) (.plain newline ih)
    rw [escapeByte_newline] at line
    have joined : text ++ source = text.takeWhile (· != newline) ++ newline :: (rest ++ source) := by
      rw [← List.cons_append, ← List.append_assoc, whole]
    rw [Highlight.lineSpans, split, joined]
    simpa only [List.append_assoc, List.cons_append, List.nil_append] using line

theorem slice_append_drop {i j : Nat} (forward : i ≤ j) : slice source i j ++ source.drop j = source.drop i := by
  have later : source.drop j = (source.drop i).drop (j - i) := by rw [List.drop_drop, Nat.add_sub_cancel' forward]
  rw [slice, later, List.take_append_drop]

/-- Ordered tokens from the position on are marked in what is left of the source. -/
theorem markedFrom_marked {position : Nat} (filled : ∀ token ∈ tokens, position ≤ token.start ∧ token.start < token.stop)
    (ordered : tokens.Pairwise fun before after => before.stop ≤ after.start) :
    Marked (markedFrom source position tokens) (source.drop position) := by
  induction tokens generalizing position with
  | nil => exact .escaped _
  | cons token rest ih =>
    obtain ⟨after, later⟩ := List.pairwise_cons.mp ordered
    have first := filled token (.head _)
    have marked := ih (fun next member => ⟨after next member, (filled next (.tail _ member)).2⟩) later
    have written := (Marked.lineSpans token.kind (slice source token.start token.stop) marked).escape
      (slice source position token.start)
    rw [slice_append_drop first.2.le, slice_append_drop first.1] at written
    rwa [markedFrom, List.append_assoc]

theorem highlightTokens_cases (source : Bytes) (tokens : List Token) :
    highlightTokens source tokens = [] ∨ highlightTokens source tokens = sanitized tokens source := by
  unfold highlightTokens
  split
  · exact .inl rfl
  · exact .inr rfl

theorem highlightHtml_marked (source : Bytes) (tokens : List Token) : Marked (highlightHtml source tokens) source := by
  unfold highlightHtml
  dsimp only
  split
  · obtain ⟨found, ordered⟩ := sanitizedFrom_ordered source 0 tokens
    obtain none | same := highlightTokens_cases source tokens
    · rw [none]
      exact .escaped source
    · rw [same]
      exact markedFrom_marked (fun token member => ⟨Nat.zero_le _, (found token member).2.1⟩) ordered
  · exact .escaped source

theorem escapeByte_length (byte : UInt8) : (escapeByte byte).length ≤ 6 := by
  unfold escapeByte
  repeat' split
  all_goals first | decide | exact Nat.le_of_ble_eq_true rfl

theorem escaped_length (text : Bytes) : (escaped text).length ≤ 6 * text.length := by
  induction text with
  | nil => exact le_rfl
  | cons byte rest ih =>
    have first := escapeByte_length byte
    rw [escaped, List.flatMap_cons, List.length_append, List.length_cons]
    unfold escaped at ih
    omega

theorem highlightHtml_length (source : Bytes) (tokens : List Token) :
    (highlightHtml source tokens).length ≤ 8 * source.length + 1024 := by
  have plain := escaped_length source
  unfold highlightHtml
  dsimp only
  split <;> omega

/-- The tokenizer of a Syntax record ends: each step returns a later position, nothing is read
or searched outside the text, and both Seekers always answer as fresh searches. -/
structure RunsToTheEnd (x : Syntax) (s : Bytes) : Prop where
  starts : Kept s {}
  steps : ∀ st, Kept s st → ∀ i < s.length, ∃ next after,
    (step x s i).exec st = (.ok next, after) ∧ Kept s after ∧ i < next ∧ next ≤ s.length
  ends : ∀ st, Kept s st → ∃ after, (run x s).exec st = (.ok (), after) ∧ Kept s after
  newline_fresh : ∀ st, Kept s st → ∀ from_, (st.newline.next s from_).1 = firstOf s [newline] from_
  brace_fresh : ∀ st, Kept s st → ∀ from_, (st.brace.next s from_).1 = firstOf s st.brace.set from_

theorem Gives.exec {α : Type} {p : Run α} {result : α → Prop} {st : State} (h : Gives s p result) (kept : Kept s st) :
    ∃ a after, p.exec st = (.ok a, after) ∧ Kept s after ∧ result a := by
  have returned := wp_exec (h st kept)
  split at returned
  · next a after same => exact ⟨a, after, same, returned⟩
  · exact returned.elim

theorem kept_initial (s : Bytes) : Kept s {} :=
  { newline_valid := fun _ _ remembered => nomatch remembered
    newline_set := rfl
    brace_valid := fun _ _ remembered => nomatch remembered }

theorem runsToTheEnd (x : Syntax) (s : Bytes) : RunsToTheEnd x s :=
  { starts := kept_initial s
    steps := fun _ kept _ inside => (step_forward inside).exec kept
    ends := fun _ kept => by
      obtain ⟨_, after, same, later, _⟩ := run_returns.exec kept
      exact ⟨after, same, later⟩
    newline_fresh := fun _ kept from_ => kept.newline_set ▸ (kept.newline_valid.next from_).1
    brace_fresh := fun _ kept from_ => (kept.brace_valid.next from_).1 }

/-- Highlighting a source only adds spans, and its tokens keep to whole UTF-8 sequences exactly
when none of those given lies inside one that no earlier token reaches past. -/
theorem highlighting_only_adds_spans (x : Syntax) (s : Bytes) (tokens : List Token) :
    RunsToTheEnd x s
      ∧ (∀ found ∈ sanitized tokens s, found.start < found.stop ∧ found.stop ≤ s.length ∧ ¬onContinuation s found.stop)
      ∧ (sanitized tokens s).Pairwise (fun before after => before.stop ≤ after.start)
      ∧ (Clean s (sanitized tokens s) ↔ Covered s tokens)
      ∧ Marked (highlightHtml s tokens) s
      ∧ (highlightHtml s tokens).length ≤ 8 * s.length + 1024
      ∧ withoutTags false (highlightHtml s tokens) = escaped s := by
  have marked := highlightHtml_marked s tokens
  obtain ⟨filled, ordered⟩ := sanitizedFrom_ordered s 0 tokens
  exact ⟨runsToTheEnd x s, fun found member => (filled found member).2, ordered, clean_iff, marked,
    highlightHtml_length s tokens, marked.withoutTags⟩

/-- A record whose marker is a lone continuation byte, over two of them: the run returns
a token for each, and the first moves onto the second byte and stays there. -/
theorem marker_token_starts_inside :
    ∃ after, (run { markers := [0x82] } [0x82, 0x82]).exec {} = (.ok (), after)
      ∧ ¬Clean [0x82, 0x82] (sanitized after.tokens [0x82, 0x82]) := by
  refine ⟨((run { markers := [0x82] } [0x82, 0x82]).exec {}).2, rfl, fun clean => ?_⟩
  have returned : ((run { markers := [0x82] } [0x82, 0x82]).exec {}).2.tokens
      = [⟨0, 1, .preprocessor⟩, ⟨1, 2, .preprocessor⟩] := rfl
  rw [returned] at clean
  exact clean.starts ⟨1, 2, .preprocessor⟩ (by decide) ⟨0x82, by decide, by decide⟩

end CkGit.Highlight
