import CkGit.Highlight.Generic

/-!
# The table-driven tokenizer moves forward

For every text and every Syntax record: no read and no search leaves the text,
a Seeker answers as a fresh search would, and every step ends further on.
-/
namespace CkGit.Highlight
open CkGit.Base CkGit.Ci Prog

variable {x : Syntax} {s : Bytes} {i j : Nat}

theorem scanWhile_ge (p : UInt8 → Bool) (s : Bytes) (j : Nat) : j ≤ scanWhile p s j := Nat.le_add_right _ _

theorem scanWhile_le {p : UInt8 → Bool} (h : j ≤ s.length) : scanWhile p s j ≤ s.length := by
  have short := (List.takeWhile_prefix p (l := s.drop j)).length_le
  rw [List.length_drop] at short
  unfold scanWhile
  omega

theorem startsAt_fits {marker : Bytes} (h : startsAt s i marker = true) :
    0 < marker.length ∧ i + marker.length ≤ s.length := by
  simp only [startsAt, Bool.and_eq_true, Bool.not_eq_true', List.isPrefixOf_iff_prefix] at h
  obtain ⟨filled, start⟩ := h
  have long := start.length_le
  rw [List.length_drop] at long
  have positive : 0 < marker.length := List.length_pos_iff.mpr (by simpa using filled)
  omega

theorem byteAt_outside (h : s.length ≤ i) : byteAt s i = 0 := by simp [byteAt, List.getD, h]

theorem byteAt_inside {byte : UInt8} (h : byteAt s i = byte) (real : byte ≠ 0) : i < s.length := by
  by_contra outside
  rw [byteAt_outside (Nat.not_lt.mp outside)] at h
  exact real h.symm

theorem has_inside {set : Bytes} (h : has set (byteAt s i) = true) : i < s.length := by
  simp only [has, Bool.and_eq_true, bne_iff_ne] at h
  exact byteAt_inside rfl h.1

theorem identStart_inside (h : identStart (byteAt s i) = true) : i < s.length := by
  by_contra outside
  rw [byteAt_outside (Nat.not_lt.mp outside)] at h
  revert h
  decide

theorem isDigit_inside (h : isDigit (byteAt s i) = true) : i < s.length := by
  by_contra outside
  rw [byteAt_outside (Nat.not_lt.mp outside)] at h
  revert h
  decide

theorem findIn_bounds {text rest : Bytes} {k stop : Nat} (h : findIn text rest k = some stop) :
    k ≤ stop ∧ stop + text.length ≤ k + rest.length := by
  induction rest generalizing k with
  | nil =>
    unfold findIn at h
    split at h
    · next start =>
      cases h
      have long := (List.isPrefixOf_iff_prefix.mp start).length_le
      omega
    · cases h
  | cons byte rest ih =>
    unfold findIn at h
    split at h
    · next start =>
      cases h
      have long := (List.isPrefixOf_iff_prefix.mp start).length_le
      omega
    · have later := ih h
      rw [List.length_cons]
      omega

theorem scanWhile_stops {p : UInt8 → Bool} {k : Nat} (low : j ≤ k) (high : k ≤ scanWhile p s j) :
    scanWhile p s k = scanWhile p s j := by
  unfold scanWhile at high ⊢
  have split : (s.drop j).takeWhile p = ((s.drop j).take (k - j)) ++ ((s.drop k).takeWhile p) := by
    have whole : s.drop j = (s.drop j).take (k - j) ++ s.drop k := by
      conv_lhs => rw [← List.take_append_drop (k - j) (s.drop j)]
      rw [List.drop_drop, show j + (k - j) = k by omega]
    have short : k - j ≤ ((s.drop j).takeWhile p).length := by omega
    have front : ∀ byte ∈ (s.drop j).take (k - j), p byte = true := by
      intro byte inside
      have among : (s.drop j).take (k - j) <+: (s.drop j).takeWhile p := by
        have both := List.takeWhile_prefix p (l := s.drop j)
        exact List.prefix_of_prefix_length_le (List.take_prefix _ _) both (by
          rw [List.length_take]
          omega)
      exact List.all_eq_true.mp List.all_takeWhile byte (among.subset inside)
    conv_lhs => rw [whole]
    rw [List.takeWhile_append_of_pos front]
  rw [split, List.length_append, List.length_take, List.length_drop]
  have bound := (List.takeWhile_prefix p (l := s.drop j)).length_le
  rw [List.length_drop] at bound
  omega

theorem firstOf_bounds (set : Bytes) (h : i ≤ s.length) : i ≤ firstOf s set i ∧ firstOf s set i ≤ s.length := by
  unfold firstOf
  split
  · omega
  · exact ⟨scanWhile_ge _ _ _, scanWhile_le h⟩

/-- The first match at or after any position inside the stretch searched is the same match. -/
theorem firstOf_same {set : Bytes} {start from_ : Nat} (low : start ≤ from_) (high : from_ ≤ firstOf s set start) :
    firstOf s set from_ = firstOf s set start := by
  unfold firstOf at high ⊢
  split at high
  · next outside => rw [if_pos (by omega), if_pos outside]
  · next inside =>
    rw [if_neg inside]
    have bound := scanWhile_le (p := fun byte => !set.contains byte) (Nat.le_of_lt (Nat.not_le.mp inside))
    split
    · omega
    · exact scanWhile_stops low high

/-- What a Seeker remembers is true. -/
def Seeker.Valid (s : Bytes) (seeker : Seeker) : Prop :=
  ∀ start found, seeker.searched = some (start, found) → found = firstOf s seeker.set start

/-- A Seeker answers each query as a fresh search would. -/
theorem Seeker.Valid.next {seeker : Seeker} (valid : seeker.Valid s) (from_ : Nat) :
    (seeker.next s from_).1 = firstOf s seeker.set from_ ∧ (seeker.next s from_).2.Valid s
      ∧ (seeker.next s from_).2.set = seeker.set := by
  have renewed : Seeker.Valid s { seeker with searched := some (from_, firstOf s seeker.set from_) } := by
    rintro _ _ ⟨⟩
    rfl
  unfold Seeker.next
  split
  · next start found remembered =>
    obtain rfl := valid start found remembered
    split
    · next inside => exact ⟨(firstOf_same inside.1 inside.2).symm, valid, rfl⟩
    · exact ⟨rfl, renewed, rfl⟩
  · exact ⟨rfl, renewed, rfl⟩

/-- The two Seekers of the tokenizer. -/
structure Kept (s : Bytes) (st : State) : Prop where
  newline_valid : st.newline.Valid s
  newline_set : st.newline.set = [newline]
  brace_valid : st.brace.Valid s

/-- The program returns, and what it returns is as said. -/
def Gives {α : Type} (s : Bytes) (p : Run α) (result : α → Prop) : Prop :=
  ∀ st, Kept s st → p.wp (fun _ => True) (fun a after => Kept s after ∧ result a) (fun _ _ => False) st

section
variable {α β : Type} {p : Run α} {f : α → Run β} {first : α → Prop} {result : β → Prop}

theorem Gives.pure {a : α} (h : first a) : Gives s (pure a : Run α) first := fun _ kept => ⟨kept, h⟩

theorem Gives.bind (one : Gives s p first) (two : ∀ a, first a → Gives s (f a) result) : Gives s (p >>= f) result := by
  intro st kept
  rw [wp_bind]
  exact wp_mono (one st kept) (fun _ held => held) (fun a after held => two a held.2 after held.1) (fun _ _ no => no)

/-- Gives.bind with the middle condition named. -/
theorem Gives.via (first : α → Prop) (one : Gives s p first) (two : ∀ a, first a → Gives s (f a) result) :
    Gives s (p >>= f) result := one.bind two

theorem Gives.mono {weaker : α → Prop} (h : Gives s p first) (implies : ∀ a, first a → weaker a) : Gives s p weaker :=
  fun st kept => wp_mono (h st kept) (fun _ held => held) (fun a _ held => ⟨held.1, implies a held.2⟩) (fun _ _ no => no)

theorem Gives.gets (g : State → α) : Gives s (gets g : Run α) fun _ => True := fun _ kept => ⟨kept, trivial⟩

theorem Gives.modify {change : State → State}
    (same : ∀ st, (change st).newline = st.newline ∧ (change st).brace = st.brace) :
    Gives s (modify change : Run Unit) fun _ => True := by
  intro st kept
  obtain ⟨newline, brace⟩ := same st
  exact ⟨trivial, ⟨newline ▸ kept.newline_valid, newline ▸ kept.newline_set, brace ▸ kept.brace_valid⟩, trivial⟩

theorem Gives.whenever {condition : Prop} [Decidable condition] {q : Run Unit} (h : Gives s q fun _ => True) :
    Gives s (whenever condition q) fun _ => True :=
  fun st kept => wp_whenever (fun _ => h st kept) (fun _ => ⟨kept, trivial⟩)

end

theorem readAt_gives (inside : i < s.length) : Gives s (readAt s i) fun byte => s[i]? = some byte := by
  intro st kept
  rw [readAt, List.getElem?_eq_getElem inside]
  exact ⟨kept, rfl⟩

theorem search_gives (text : Bytes) (inside : i ≤ s.length) : Gives s (search s text i)
    fun found => ∀ k, found = some k → i ≤ k ∧ k + text.length ≤ s.length := by
  intro st kept
  rw [search, if_pos inside]
  refine ⟨kept, fun k found => ?_⟩
  have bounds := findIn_bounds found
  rw [List.length_drop] at bounds
  omega

theorem emit_gives (start stop : Nat) (kind : TokenKind) : Gives s (emit start stop kind) fun _ => True :=
  .whenever (.modify fun _ => ⟨rfl, rfl⟩)

theorem expectOperand_gives (expected : Bool) : Gives s (expectOperand expected) fun _ => True :=
  .modify fun _ => ⟨rfl, rfl⟩

theorem newlineNext_gives (s : Bytes) (i : Nat) : Gives s (newlineNext s i) fun found => found = firstOf s [newline] i := by
  intro st kept
  obtain ⟨answer, valid, set⟩ := kept.newline_valid.next i
  rw [kept.newline_set] at answer set
  exact ⟨trivial, ⟨valid, set, kept.brace_valid⟩, answer⟩

theorem braceNext_gives (inside : i ≤ s.length) :
    Gives s (braceNext s i) fun found => i ≤ found ∧ found ≤ s.length := by
  intro st kept
  obtain ⟨answer, valid, _⟩ := kept.brace_valid.next i
  have bounds := firstOf_bounds st.brace.set inside
  rw [← answer] at bounds
  exact ⟨trivial, ⟨kept.newline_valid, kept.newline_set, valid⟩, bounds⟩

/-- The program ends further on, inside the text. -/
def Forward (s : Bytes) (i : Nat) (p : Run Nat) : Prop := Gives s p fun stop => i < stop ∧ stop ≤ s.length

/-- The same where it finds an end at all. -/
def ForwardIf (s : Bytes) (i : Nat) (p : Run (Option Nat)) : Prop :=
  Gives s p fun found => ∀ stop, found = some stop → i < stop ∧ stop ≤ s.length

theorem firstOf_past {set : Bytes} {byte : UInt8} (here : s[i]? = some byte) (other : set.contains byte = false) :
    i < firstOf s set i := by
  have inside : i < s.length := (List.getElem?_eq_some_iff.mp here).1
  rw [firstOf, if_neg (by omega), scanWhile, List.drop_eq_getElem_cons inside]
  have same : s[i] = byte := (List.getElem?_eq_some_iff.mp here).2
  rw [same, List.takeWhile_cons_of_pos (by simp only [other, Bool.not_false]), List.length_cons]
  omega

theorem newlineNext_ahead (inside : i ≤ s.length) :
    Gives s (newlineNext s i) fun found => i ≤ found ∧ found ≤ s.length := by
  refine (newlineNext_gives s i).mono fun found same => ?_
  exact same ▸ firstOf_bounds _ inside

theorem newlineNext_past {byte : UInt8} (here : s[i]? = some byte) (other : byte ≠ newline) :
    Forward s i (newlineNext s i) := by
  have inside : i < s.length := (List.getElem?_eq_some_iff.mp here).1
  refine (newlineNext_gives s i).mono fun found same => ?_
  subst same
  exact ⟨firstOf_past here (by simpa using other), (firstOf_bounds _ inside.le).2⟩

theorem emitted {start stop : Nat} {kind : TokenKind} {α : Type} {q : Run α} {result : α → Prop}
    (h : Gives s q result) : Gives s (do emit start stop kind; q) result := (emit_gives start stop kind).bind fun _ _ => h

theorem expecting {expected : Bool} {α : Type} {q : Run α} {result : α → Prop} (h : Gives s q result) :
    Gives s (do expectOperand expected; q) result := (expectOperand_gives expected).bind fun _ _ => h

theorem toLineEnd_forward {kind : TokenKind} {byte : UInt8} (here : s[i]? = some byte) (other : byte ≠ newline) :
    Forward s i (toLineEnd s i kind) :=
  .bind (newlineNext_past here other) fun _ ahead => emitted (.pure ahead)

theorem closed_forward {body : Nat} {close : Bytes} {kind : TokenKind} (ahead : i < body) (inside : body ≤ s.length) :
    Forward s i (closed s i body close kind) := by
  refine .via (fun stop => i < stop ∧ stop ≤ s.length) ?_ fun _ ahead => emitted (.pure ahead)
  split
  · exact (newlineNext_ahead inside).mono fun stop bounds => by omega
  · refine .bind (search_gives close inside) fun found bounds => ?_
    split
    · next k =>
      have := bounds k rfl
      exact .pure (by omega)
    · exact .pure (by omega)

theorem nestedEnd_ahead {start close : Bytes} {fuel depth : Nat} (enough : s.length < j + fuel) (inside : j ≤ s.length) :
    Gives s (nestedEnd s start close fuel j depth) fun stop => j ≤ stop ∧ stop ≤ s.length := by
  induction fuel generalizing j depth with
  | zero => omega
  | succ fuel ih =>
    unfold nestedEnd
    split
    · exact .pure ⟨le_rfl, inside⟩
    · split
      · next opens =>
        have := startsAt_fits opens
        exact (ih (by omega) (by omega)).mono fun stop bounds => by omega
      · split
        · next closes =>
          have := startsAt_fits closes
          split
          · exact .pure (by omega)
          · exact (ih (by omega) (by omega)).mono fun stop bounds => by omega
        · exact (ih (by omega) (by omega)).mono fun stop bounds => by omega

theorem nestedComment_forward {start close : Bytes} (opens : startsAt s i start = true) :
    Forward s i (nestedComment s i start close) := by
  have fits := startsAt_fits opens
  refine .via (fun stop => i < stop ∧ stop ≤ s.length) ?_ fun _ ahead => emitted (.pure ahead)
  rw [nestedEnd, if_neg (by omega), if_pos opens]
  exact (nestedEnd_ahead (by omega) (by omega)).mono fun stop bounds => by omega

theorem lineBlockEnd_ahead {fuel : Nat} (enough : s.length < j + fuel) (inside : j ≤ s.length) :
    Gives s (lineBlockEnd x s fuel j) fun stop => j ≤ stop ∧ stop ≤ s.length := by
  induction fuel generalizing j with
  | zero => omega
  | succ fuel ih =>
    unfold lineBlockEnd
    split
    · exact .pure ⟨le_rfl, inside⟩
    · split
      · exact (newlineNext_ahead (by omega)).mono fun stop bounds => by omega
      · refine .bind (newlineNext_ahead (by omega)) fun next bounds => ?_
        exact (ih (by omega) bounds.2).mono fun stop more => by omega

theorem lineBlock_forward {byte : UInt8} (here : s[i]? = some byte) (other : byte ≠ newline) :
    Forward s i (lineBlock x s i) := by
  refine .bind (newlineNext_past here other) fun first ahead => ?_
  refine .bind (lineBlockEnd_ahead (by omega) ahead.2) fun stop bounds => emitted (.pure ?_)
  omega

theorem attributeEnd_bounds (rest : Bytes) (j depth : Nat) :
    j ≤ attributeEnd rest j depth ∧ attributeEnd rest j depth ≤ j + rest.length := by
  induction rest generalizing j depth with
  | nil => exact ⟨le_rfl, le_rfl⟩
  | cons byte rest ih =>
    have plain := ih (j + 1) depth
    have deeper := ih (j + 1) (depth + 1)
    have less := ih (j + 1) (depth - 1)
    rw [List.length_cons]
    unfold attributeEnd
    split
    · omega
    · split
      · omega
      · split
        · split <;> omega
        · omega

theorem attributeRun_forward (opens : startsAt s i (ascii "#[") = true ∨ startsAt s i (ascii "#![") = true) :
    Forward s i (attributeRun s i) := by
  have two : i + 2 ≤ s.length := by
    rcases opens with short | long
    · exact (startsAt_fits short).2
    · have := (startsAt_fits long).2
      have size : (ascii "#![").length = 3 := rfl
      omega
  refine .bind (readAt_gives (by omega)) fun second here => emitted (.pure ?_)
  have body : i + (if second = '!'.toUInt8 then 3 else 2) ≤ s.length := by
    split
    · next bang =>
      rcases opens with short | long
      · simp only [startsAt, Bool.and_eq_true, List.isPrefixOf_iff_prefix] at short
        obtain ⟨rest, whole⟩ := short.2
        have second_byte : (s.drop i)[1]? = some '['.toUInt8 := by rw [← whole]; rfl
        rw [List.getElem?_drop, here, bang] at second_byte
        exact absurd second_byte (by decide)
      · exact (startsAt_fits long).2
    · exact two
  have bounds := attributeEnd_bounds (s.drop (i + (if second = '!'.toUInt8 then 3 else 2)))
    (i + (if second = '!'.toUInt8 then 3 else 2)) 1
  rw [List.length_drop] at bounds
  refine ⟨?_, by omega⟩
  have past : i < i + (if second = '!'.toUInt8 then 3 else 2) := by split <;> omega
  omega

theorem longBracketLevel_fits {level : Nat} (h : longBracketLevel s i = some level) :
    i + level + 2 ≤ s.length := by
  unfold longBracketLevel at h
  split at h
  · cases h
  · simp only at h
    split at h
    · next opens =>
      cases h
      have := byteAt_inside opens (by decide)
      omega
    · cases h

theorem longBracket_forward {start level : Nat} {kind : TokenKind} (before : i ≤ start)
    (inside : start + level + 2 ≤ s.length) : Forward s i (longBracket s i start level kind) := by
  refine .bind (search_gives _ inside) fun found bounds => emitted (.bind (.whenever (expectOperand_gives _)) fun _ _ =>
    .pure ?_)
  cases found with
  | none =>
    simp only [Option.map_none, Option.getD_none]
    omega
  | some k =>
    have := bounds k rfl
    simp only [Option.map_some, Option.getD_some]
    omega

theorem identEnd_bounds (inside : j ≤ s.length) : j ≤ identEnd s j ∧ identEnd s j ≤ s.length :=
  ⟨scanWhile_ge _ _ _, scanWhile_le inside⟩

theorem sigilEnd_ahead (inside : i < s.length) : Gives s (sigilEnd s i) fun stop => i ≤ stop ∧ stop ≤ s.length := by
  unfold sigilEnd
  simp only
  split
  · next brace =>
    have next := byteAt_inside brace (by decide)
    refine .bind (braceNext_gives (by omega)) fun close bounds => ?_
    split
    · next here =>
      have := (List.getElem?_eq_some_iff.mp here).1
      exact .pure (by omega)
    · exact .pure (by omega)
  · split
    · next named =>
      have next : i + 1 < s.length := by
        rcases Bool.or_eq_true_iff.mp named with letter | digit
        · exact identStart_inside letter
        · exact isDigit_inside digit
      have := identEnd_bounds (s := s) (j := i + 2) (by omega)
      exact .pure (by omega)
    · exact .pure (by omega)

theorem stringLoop_ahead {form : Form} {fuel start : Nat} (enough : s.length < j + fuel) (inside : j ≤ s.length) :
    Gives s (stringLoop x s form fuel start j) fun stop => j ≤ stop ∧ stop ≤ s.length := by
  induction fuel generalizing start j with
  | zero => omega
  | succ fuel ih =>
    unfold stringLoop
    split
    · exact emitted (.pure ⟨le_rfl, inside⟩)
    · next byte here =>
      have within : j < s.length := (List.getElem?_eq_some_iff.mp here).1
      refine .bind (.gets _) fun frames _ => .bind (.gets _) fun depth _ => ?_
      split
      · next doubled =>
        have := byteAt_inside doubled.2.2.2 (by decide)
        exact (ih (by omega) (by omega)).mono fun stop bounds => by omega
      · split
        · next opens =>
          have := startsAt_fits opens.2.1
          exact emitted (emitted (.bind (.modify fun _ => ⟨rfl, rfl⟩) fun _ _ => expecting (.pure (by omega))))
        · refine .via (fun sigil => j ≤ sigil ∧ sigil ≤ s.length) ?_ fun sigil ahead => ?_
          · split
            · exact sigilEnd_ahead within
            · exact .pure ⟨le_rfl, inside⟩
          · split
            · exact emitted (emitted ((ih (by omega) ahead.2).mono fun stop bounds => by omega))
            · split
              · exact (ih (by omega) (by omega)).mono fun stop bounds => by omega
              · split
                · next closes =>
                  have := startsAt_fits closes.2
                  exact emitted (.pure (by omega))
                · split
                  · exact emitted (.pure ⟨le_rfl, inside⟩)
                  · exact (ih (by omega) (by omega)).mono fun stop bounds => by omega

theorem stringRun_forward {form : Form} {start : Nat} (before : i < j) (inside : j ≤ s.length) :
    Forward s i (stringRun x s start j form) :=
  expecting ((stringLoop_ahead (by omega) inside).mono fun stop bounds => by omega)

end CkGit.Highlight
