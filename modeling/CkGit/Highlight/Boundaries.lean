import Mathlib.Data.List.TakeWhile
import CkGit.Highlight.Forward

/-!
# Token boundaries and UTF-8 sequences

What is made of a tokenizer's tokens (sanitized, highlightTokens and
highlightHtml in src/common/highlight.cpp): boundaries on a continuation byte
move forward, tokens that overlap are cut, and each line of a token becomes a span.
The repaired tokens are non-empty, inside the text, in order and disjoint, and none
ends on a continuation byte. None starts on one either, unless a token lies
inside a single sequence and no earlier token reaches past it.
-/
namespace CkGit.Highlight
open CkGit.Base CkGit.Ci

def continuationByte (byte : UInt8) : Bool := byte &&& 0xc0 == 0x80

/-- Where a token begins and ends once its boundaries moved forward. -/
def movedStart (s : Bytes) (token : Token) : Nat :=
  scanWhile continuationByte (s.take (min token.stop s.length)) token.start

def movedStop (s : Bytes) (token : Token) : Nat := scanWhile continuationByte s (min token.stop s.length)

def sanitizedFrom (s : Bytes) (last : Nat) (tokens : List Token) : List Token :=
  match tokens with
  | [] => []
  | token :: rest =>
    let start := max (movedStart s token) last
    if movedStop s token ≤ start then sanitizedFrom s last rest
    else ⟨start, movedStop s token, token.kind⟩ :: sanitizedFrom s (movedStop s token) rest

def sanitized (tokens : List Token) (s : Bytes) : List Token := sanitizedFrom s 0 tokens

def escapeByte (byte : UInt8) : Bytes :=
  if byte = '&'.toUInt8 then ascii "&amp;"
  else if byte = '<'.toUInt8 then ascii "&lt;"
  else if byte = '>'.toUInt8 then ascii "&gt;"
  else if byte = '"'.toUInt8 then ascii "&quot;"
  else if byte = '\''.toUInt8 then ascii "&#39;"
  else if (byte < 0x20 ∧ byte ≠ newline ∧ byte ≠ '\t'.toUInt8) ∨ byte = 0x7f then [0xef, 0xbf, 0xbd]
  else [byte]

def escaped (value : Bytes) : Bytes := value.flatMap escapeByte

def kMaximumHighlightBytes : Nat := 128 * 1024

/-- highlightTokens, over what the tokenizer of the language returns. -/
def highlightTokens (source : Bytes) (tokens : List Token) : List Token :=
  if source.length > kMaximumHighlightBytes then [] else sanitized tokens source

def highlightClass (kind : TokenKind) : Bytes :=
  match kind with
  | .comment => ascii "hl-c"
  | .string => ascii "hl-s"
  | .keyword => ascii "hl-k"
  | .number => ascii "hl-n"
  | .property => ascii "hl-a"
  | .preprocessor => ascii "hl-p"
  | .variable => ascii "hl-v"
  | .type => ascii "hl-t"
  | .function => ascii "hl-f"
  | .inserted => ascii "hl-i"
  | .deleted => ascii "hl-d"

def openTag (kind : TokenKind) : Bytes := ascii "<span class=\"" ++ highlightClass kind ++ ascii "\">"

def closeTag : Bytes := ascii "</span>"

def spanOf (kind : TokenKind) (line : Bytes) : Bytes :=
  if line.isEmpty then [] else openTag kind ++ escaped line ++ closeTag

/-- A span for each line of a token's text that is not empty. -/
def lineSpans (kind : TokenKind) (text : Bytes) : Bytes :=
  match _rest : text.dropWhile (· != newline) with
  | [] => spanOf kind text
  | _ :: later => spanOf kind (text.takeWhile (· != newline)) ++ newline :: lineSpans kind later
  termination_by text.length
  decreasing_by
    have whole := congrArg List.length (List.takeWhile_append_dropWhile (p := (· != newline)) (l := text))
    rw [_rest, List.length_append, List.length_cons] at whole
    omega

def slice (source : Bytes) (start stop : Nat) : Bytes := (source.drop start).take (stop - start)

def markedFrom (source : Bytes) (position : Nat) (tokens : List Token) : Bytes :=
  match tokens with
  | [] => escaped (source.drop position)
  | token :: rest =>
    escaped (slice source position token.start) ++ lineSpans token.kind (slice source token.start token.stop)
      ++ markedFrom source token.stop rest

def highlightHtml (source : Bytes) (tokens : List Token) : Bytes :=
  let found := highlightTokens source tokens
  let html := markedFrom source 0 found
  if ¬ found.isEmpty ∧ html.length ≤ source.length * 8 + 1024 then html else escaped source

variable {s : Bytes} {token e : Token} {last i j k : Nat}

/-- The text has a continuation byte at this position. -/
def onContinuation (s : Bytes) (k : Nat) : Prop := ∃ byte, s[k]? = some byte ∧ continuationByte byte = true

/-- Tokens in order, non-empty, inside the text, and never starting or ending inside a UTF-8 sequence. -/
structure Clean (s : Bytes) (tokens : List Token) : Prop where
  filled : ∀ token ∈ tokens, token.start < token.stop ∧ token.stop ≤ s.length
  ordered : tokens.Pairwise fun before after => before.stop ≤ after.start
  starts : ∀ token ∈ tokens, ¬onContinuation s token.start
  stops : ∀ token ∈ tokens, ¬onContinuation s token.stop

/-- A token that has continuation bytes only, the byte it stops before among them. -/
def InsideSequence (s : Bytes) (token : Token) : Prop :=
  ∀ k, min token.start (min token.stop s.length) ≤ k → k ≤ max token.start (min token.stop s.length) → onContinuation s k

/-- The earlier token holds the start of a character, and none starts from its end up to the end of the other. -/
def ReachesPast (s : Bytes) (e token : Token) : Prop :=
  (∃ k, e.start ≤ k ∧ k < min e.stop s.length ∧ ¬onContinuation s k)
    ∧ ∀ k, min e.stop s.length ≤ k → k ≤ max token.start (min token.stop s.length) → onContinuation s k

/-- Whenever a token lies inside a UTF-8 sequence, an earlier one reaches past it. -/
def Covered (s : Bytes) (tokens : List Token) : Prop :=
  ∀ before token after, tokens = before ++ token :: after → InsideSequence s token → ∃ e ∈ before, ReachesPast s e token

theorem scanWhile_within {p : UInt8 → Bool} (low : j ≤ k) (high : k < scanWhile p s j) :
    ∃ byte, s[k]? = some byte ∧ p byte = true := by
  have small : k - j < ((s.drop j).takeWhile p).length := by
    unfold scanWhile at high
    omega
  have part : (s.drop j)[k - j]? = ((s.drop j).takeWhile p)[k - j]? := by
    nth_rewrite 1 [← List.takeWhile_append_dropWhile (p := p) (l := s.drop j)]
    exact List.getElem?_append_left small
  rw [List.getElem?_drop, Nat.add_sub_cancel' low, List.getElem?_eq_getElem small] at part
  exact ⟨_, part, List.mem_takeWhile_imp (List.getElem_mem small)⟩

theorem scanWhile_end {p : UInt8 → Bool} {byte : UInt8} (here : s[scanWhile p s j]? = some byte) : p byte = false := by
  have dropped : ((s.drop j).dropWhile p)[0]? = some byte := by
    rw [scanWhile, ← List.getElem?_drop] at here
    nth_rewrite 1 [← List.takeWhile_append_dropWhile (p := p) (l := s.drop j)] at here
    rwa [List.getElem?_append_right le_rfl, Nat.sub_self] at here
  cases rest : (s.drop j).dropWhile p with
  | nil => simp [rest] at dropped
  | cons first later =>
    have stopped := List.head_dropWhile_not p (l := s.drop j) (by simp [rest])
    simp only [rest, List.head_cons, List.getElem?_cons_zero, Option.some.injEq] at dropped stopped
    exact dropped ▸ stopped

theorem scan_not_continuation (s : Bytes) (j : Nat) : ¬onContinuation s (scanWhile continuationByte s j) := by
  rintro ⟨byte, here, continues⟩
  rw [scanWhile_end here] at continues
  exact Bool.noConfusion continues

theorem movedStop_ge (s : Bytes) (token : Token) : min token.stop s.length ≤ movedStop s token := scanWhile_ge _ _ _

theorem movedStop_le (s : Bytes) (token : Token) : movedStop s token ≤ s.length := scanWhile_le (Nat.min_le_right _ _)

theorem movedStop_passes (token : Token) (low : min token.stop s.length ≤ k) (high : k < movedStop s token) : onContinuation s k :=
  scanWhile_within low high

theorem before_movedStop
    (all : ∀ k', min token.stop s.length ≤ k' → k' ≤ k → onContinuation s k') : k < movedStop s token := by
  by_contra after
  exact scan_not_continuation s _ (all _ (movedStop_ge s token) (Nat.not_lt.mp after))

theorem movedStart_ge (s : Bytes) (token : Token) : token.start ≤ movedStart s token := scanWhile_ge _ _ _

theorem movedStart_le (s : Bytes) (token : Token) :
    movedStart s token ≤ max token.start (min token.stop s.length) := by
  have short := (List.takeWhile_prefix continuationByte (l := (s.take (min token.stop s.length)).drop token.start)).length_le
  rw [List.length_drop, List.length_take] at short
  unfold movedStart scanWhile
  omega

theorem movedStart_passes (low : token.start ≤ k) (high : k < movedStart s token) : onContinuation s k := by
  obtain ⟨byte, here, continues⟩ := scanWhile_within low high
  rw [List.getElem?_take] at here
  split at here
  · exact ⟨byte, here, continues⟩
  · exact nomatch here

/-- A token's start stops at the start of a character, where the token has one. -/
theorem movedStart_free (inside : movedStart s token < min token.stop s.length) : ¬onContinuation s (movedStart s token) := by
  rintro ⟨byte, here, continues⟩
  have taken : (s.take (min token.stop s.length))[movedStart s token]? = some byte := by
    rwa [List.getElem?_take, if_pos inside]
  rw [scanWhile_end taken] at continues
  exact Bool.noConfusion continues

theorem insideSequence_iff :
    InsideSequence s token ↔ min token.stop s.length ≤ movedStart s token ∧ movedStart s token < movedStop s token := by
  have least := movedStart_ge s token
  have most := movedStart_le s token
  constructor
  · intro inside
    have past : min token.stop s.length ≤ movedStart s token := by
      by_contra short
      exact movedStart_free (Nat.not_le.mp short) (inside _ (by omega) (by omega))
    exact ⟨past, before_movedStop fun k low high => inside k (by omega) (by omega)⟩
  · rintro ⟨past, short⟩ k low high
    by_cases body : token.start ≤ k ∧ k < movedStart s token
    · exact movedStart_passes body.1 body.2
    · exact movedStop_passes token (by omega) (by omega)

theorem insideSequence_start (inside : InsideSequence s token) :
    movedStart s token = max token.start (min token.stop s.length) := by
  have least := movedStart_ge s token
  have most := movedStart_le s token
  have past := (insideSequence_iff.mp inside).1
  omega

theorem reachesPast_iff (inside : InsideSequence s token) :
    ReachesPast s e token ↔ movedStart s e < min e.stop s.length ∧ movedStart s token < movedStop s e := by
  rw [ReachesPast, ← insideSequence_start inside]
  have least := movedStart_ge s e
  refine and_congr ⟨?_, fun short => ⟨_, least, short, movedStart_free short⟩⟩ ⟨before_movedStop, ?_⟩
  · rintro ⟨k, low, high, free⟩
    by_contra long
    exact free (movedStart_passes low (by omega))
  · intro past k low high
    exact movedStop_passes e low (by omega)

section
variable {tokens : List Token}

/-- No token starts before the position, and it is not inside a UTF-8 sequence. -/
def Anchored (s : Bytes) (last : Nat) : Prop := last = 0 ∨ ¬onContinuation s last

theorem anchored_movedStop (s : Bytes) (token : Token) : Anchored s (movedStop s token) := .inr (scan_not_continuation s _)

/-- What holds of the tokens whether or not one of them lies inside a sequence. -/
theorem sanitizedFrom_ordered (s : Bytes) (last : Nat) (tokens : List Token) :
    (∀ found ∈ sanitizedFrom s last tokens,
        last ≤ found.start ∧ found.start < found.stop ∧ found.stop ≤ s.length ∧ ¬onContinuation s found.stop)
      ∧ (sanitizedFrom s last tokens).Pairwise fun before after => before.stop ≤ after.start := by
  induction tokens generalizing last with
  | nil => exact ⟨fun _ member => (nomatch member), .nil⟩
  | cons token rest ih =>
    rw [sanitizedFrom]
    split
    · exact ih last
    · next kept =>
      obtain ⟨later, ordered⟩ := ih (movedStop s token)
      refine ⟨?_, .cons (fun found member => (later found member).1) ordered⟩
      rintro found (_ | ⟨_, member⟩)
      · exact ⟨Nat.le_max_right _ _, Nat.not_le.mp kept, movedStop_le s token, scan_not_continuation s _⟩
      · have after := later found member
        exact ⟨by omega, after.2⟩

/-- A kept token starts inside a sequence exactly when it lies inside one and nothing before reaches past it. -/
theorem kept_start (anchored : Anchored s last) (kept : max (movedStart s token) last < movedStop s token) :
    ¬onContinuation s (max (movedStart s token) last) ↔ (InsideSequence s token → movedStart s token < last) := by
  constructor
  · intro free inside
    by_contra short
    rw [Nat.max_eq_left (Nat.not_lt.mp short)] at free
    exact free (movedStop_passes token (insideSequence_iff.mp inside).1 (by omega))
  · intro reached held
    have behind : last ≤ movedStart s token := by
      by_contra ahead
      rw [Nat.max_eq_right (by omega)] at held
      exact anchored.elim (by omega) fun free => free held
    rw [Nat.max_eq_left behind] at held
    have past : min token.stop s.length ≤ movedStart s token := by
      by_contra short
      exact movedStart_free (Nat.not_le.mp short) held
    have := reached (insideSequence_iff.mpr ⟨past, by omega⟩)
    omega

/-- Covered, where the tokens before these already reach the position. -/
def CoveredFrom (s : Bytes) (last : Nat) (tokens : List Token) : Prop :=
  ∀ before token after, tokens = before ++ token :: after → InsideSequence s token →
    movedStart s token < last ∨ ∃ e ∈ before, ReachesPast s e token

theorem coveredFrom_zero : CoveredFrom s 0 tokens ↔ Covered s tokens := by
  simp only [CoveredFrom, Covered, Nat.not_lt_zero, false_or]

/-- The position after a token: what the loop remembers as last. -/
def nextLast (s : Bytes) (last : Nat) (token : Token) : Nat :=
  if movedStop s token ≤ max (movedStart s token) last then last else movedStop s token

theorem coveredFrom_cons (anchored : Anchored s last) :
    CoveredFrom s last (token :: tokens) ↔
      (InsideSequence s token → movedStart s token < last) ∧ CoveredFrom s (nextLast s last token) tokens := by
  constructor
  · intro covered
    refine ⟨fun inside => ?_, fun before other after split inside => ?_⟩
    · obtain reached | ⟨e, member, _⟩ := covered [] token tokens rfl inside
      · exact reached
      · exact nomatch member
    · obtain reached | ⟨e, member, past⟩ := covered (token :: before) other after (by rw [split]; rfl) inside
      · left
        unfold nextLast
        split <;> omega
      · obtain _ | ⟨_, member⟩ := member
        · left
          have filled := (reachesPast_iff inside).mp past
          have end_ := movedStop_ge s token
          unfold nextLast
          split <;> omega
        · exact .inr ⟨e, member, past⟩
  · rintro ⟨first, later⟩ before other after split inside
    cases before with
    | nil =>
      obtain ⟨rfl, rfl⟩ := List.cons.inj split
      exact .inl (first inside)
    | cons e before =>
      obtain ⟨rfl, rfl⟩ := List.cons.inj split
      obtain reached | ⟨e, member, past⟩ := later before other after rfl inside
      · unfold nextLast at reached
        split at reached
        · exact .inl reached
        · next kept =>
          right
          refine ⟨token, .head _, (reachesPast_iff inside).mpr ⟨?_, reached⟩⟩
          by_contra long
          -- then the token is inside a sequence itself, and the position before it too
          have inner := insideSequence_iff.mpr ⟨Nat.not_lt.mp long, by omega⟩
          have ahead := first inner
          exact anchored.elim (by omega) fun free => free (movedStop_passes token (by omega) (by omega))
      · exact .inr ⟨e, .tail _ member, past⟩

theorem sanitizedFrom_starts (anchored : Anchored s last) :
    (∀ found ∈ sanitizedFrom s last tokens, ¬onContinuation s found.start) ↔ CoveredFrom s last tokens := by
  induction tokens generalizing last with
  | nil =>
    refine ⟨fun _ before token after split => ?_, fun _ _ member => nomatch member⟩
    exact absurd split (by simp)
  | cons token rest ih =>
    rw [coveredFrom_cons anchored, sanitizedFrom, nextLast]
    split
    · next dropped =>
      have first : InsideSequence s token → movedStart s token < last := fun inside => by
        have short := (insideSequence_iff.mp inside).2
        omega
      rw [ih anchored]
      exact ⟨fun later => ⟨first, later⟩, And.right⟩
    · next kept =>
      rw [List.forall_mem_cons, kept_start anchored (Nat.not_le.mp kept), ih (anchored_movedStop s token)]

/-- The tokens are clean exactly when no token lies inside a sequence that no earlier one reaches past. -/
theorem clean_iff : Clean s (sanitized tokens s) ↔ Covered s tokens := by
  obtain ⟨found, ordered⟩ := sanitizedFrom_ordered s 0 tokens
  rw [← coveredFrom_zero, ← sanitizedFrom_starts (.inl rfl)]
  refine ⟨Clean.starts, fun starts => ?_⟩
  exact { filled := fun token member => ⟨(found token member).2.1, (found token member).2.2.1⟩
          ordered := ordered
          starts := starts
          stops := fun token member => (found token member).2.2.2 }

end

end CkGit.Highlight
