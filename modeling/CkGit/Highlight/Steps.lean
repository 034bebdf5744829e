import CkGit.Highlight.Forward

/-!
# Every step of the tokenizer ends further on

The literals and names one by one, then what a step tries in turn.
-/
namespace CkGit.Highlight
open CkGit.Base CkGit.Ci Prog

variable {x : Syntax} {s : Bytes} {i j : Nat}

/-- A closing quote is found ahead, within the text. -/
theorem closeQuote_bounds {rest : Bytes} {k limit stop : Nat} (h : closeQuote rest k limit = some stop) :
    k < stop ∧ stop ≤ k + rest.length := by
  induction rest generalizing k with
  | nil => cases h
  | cons byte rest ih =>
    unfold closeQuote at h
    rw [List.length_cons]
    split at h
    · cases h
    · split at h
      · cases h
        omega
      · have later := ih h
        omega

theorem utf8Length_pos (byte : UInt8) : 0 < utf8Length byte := by
  unfold utf8Length
  split
  · decide
  · split
    · split <;> decide
    · split <;> decide

/-- A character literal ends ahead, within the text. -/
theorem charLiteralEnd_bounds {escape : UInt8} {stop : Nat} (h : charLiteralEnd s i escape = some stop) :
    i < stop ∧ stop ≤ s.length := by
  unfold charLiteralEnd at h
  split at h
  · cases h
  · next byte here =>
    have inside := (List.getElem?_eq_some_iff.mp here).1
    split at h
    · cases h
    · split at h
      · have bounds := closeQuote_bounds h
        rw [List.length_drop] at bounds
        by_cases short : i + 3 ≤ s.length
        · omega
        · rw [List.drop_of_length_le (by omega)] at h
          cases h
      · simp only at h
        split at h
        · next quote =>
          cases h
          have := (List.getElem?_eq_some_iff.mp quote).1
          omega
        · cases h

/-- A literal, a lifetime or a lone apostrophe: each goes forward. -/
theorem apostrophe_forward (inside : i < s.length) : Forward s i (apostrophe x s i) := by
  unfold apostrophe
  split
  · next stop literal => exact emitted (expecting (.pure (charLiteralEnd_bounds literal)))
  · split
    · next named =>
      have next := identStart_inside named.2
      have := identEnd_bounds (s := s) (j := i + 1) (by omega)
      exact emitted (expecting (.pure (by omega)))
    · exact expecting (.pure (by omega))

theorem prefixedCharEnd_bounds (opens : startsAt s i x.char_prefix = true) :
    i < prefixedCharEnd x s i ∧ prefixedCharEnd x s i ≤ s.length := by
  have fits := startsAt_fits opens
  unfold prefixedCharEnd
  simp only
  split
  · omega
  · next byte here =>
    have inside := (List.getElem?_eq_some_iff.mp here).1
    have positive := utf8Length_pos byte
    split
    · omega
    · have one : ∀ k, i < k → k ≤ s.length → i < scanWhile isAlpha s k ∧ scanWhile isAlpha s k ≤ s.length :=
        fun k low high => ⟨Nat.lt_of_lt_of_le low (scanWhile_ge _ _ _), scanWhile_le high⟩
      split
      · split
        · exact one _ (by omega) (by omega)
        · exact one _ (by omega) (by omega)
      · split <;> omega

/-- The name of an annotation ends within the text. -/
theorem annotationEnd_bounds (rest : Bytes) (stop : Nat) :
    stop ≤ annotationEnd rest stop ∧ annotationEnd rest stop ≤ stop + rest.length := by
  induction rest generalizing stop with
  | nil => exact ⟨le_rfl, le_rfl⟩
  | cons byte rest ih =>
    have later := ih (stop + 1)
    rw [List.length_cons]
    unfold annotationEnd
    split <;> omega

theorem annotation_forward (inside : i < s.length) : Forward s i <| annotation s i := by
  have bounds := annotationEnd_bounds (s.drop (i + 1)) (i + 1)
  rw [List.length_drop] at bounds
  exact emitted (expecting (.pure (by omega)))

theorem wordEnd_bounds (inside : i < s.length) : i < wordEnd x s i ∧ wordEnd x s i ≤ s.length :=
  ⟨Nat.lt_of_lt_of_le (Nat.lt_succ_self i) (scanWhile_ge _ _ _), scanWhile_le inside⟩

/-- A symbol goes forward where there is one. -/
theorem symbol_forward (inside : i < s.length) : ForwardIf s i (symbol x s i) := by
  unfold symbol
  simp only
  split
  · exact .pure (by simp)
  · next named =>
    have within : symbolStart s i < s.length := by
      simp only [Bool.not_eq_true, Bool.or_eq_false_iff, not_and_or, Bool.not_eq_false] at named
      rcases named with letter | extra
      · exact identStart_inside letter
      · exact has_inside extra
    have past : i < symbolStart s i := by
      unfold symbolStart
      split <;> omega
    refine .via (fun _ => True) ?_ fun before _ => ?_
    · unfold colonInside
      split
      · exact .pure trivial
      · exact (readAt_gives (by omega)).bind fun _ _ => .pure trivial
    · split
      · exact .pure (by simp)
      · have bounds := wordEnd_bounds (x := x) within
        refine emitted (expecting (.pure fun stop same => ?_))
        cases same
        omega

theorem pastOne_bounds (set : Bytes) (inside : j ≤ s.length) : j ≤ pastOne s set j ∧ pastOne s set j ≤ s.length := by
  unfold pastOne
  split
  · next there =>
    have := has_inside there
    omega
  · omega

/-- The start of a here-document goes forward where there is one. -/
theorem heredocStart_forward (opens : startsAt s i (ascii "<<") = true) : ForwardIf s i (heredocStart s i) := by
  have two : i + 2 ≤ s.length := (startsAt_fits opens).2
  have angle := pastOne_bounds (ascii "<") two
  have dash := pastOne_bounds (ascii "~-") angle.2
  have name := pastOne_bounds (ascii "'\"") dash.2
  have low : heredocName s i ≤ heredocNameEnd s i := scanWhile_ge _ _ _
  have high : heredocNameEnd s i ≤ s.length := scanWhile_le name.2
  have past : i < heredocName s i := by
    unfold heredocName heredocAt
    omega
  unfold heredocStart
  simp only
  split
  · exact .pure (by simp)
  · split
    · next quoted =>
      split
      · exact .pure (by simp)
      · next closed =>
        have inside := byteAt_inside (not_not.mp closed) quoted
        refine .bind (.modify fun _ => ⟨rfl, rfl⟩) fun _ _ => .pure fun stop same => ?_
        cases same
        omega
    · split
      · exact .pure (by simp)
      · refine .bind (.modify fun _ => ⟨rfl, rfl⟩) fun _ _ => .pure fun stop same => ?_
        cases same
        omega

/-- A closing delimiter is found ahead, within the text. -/
theorem delimitedFrom_bounds {start close : UInt8} {k depth stop : Nat} (rest : Bytes)
    (h : delimitedFrom start close rest k depth = some stop) : k < stop ∧ stop ≤ k + rest.length := by
  induction rest, k, depth using delimitedFrom.induct start close with
  | case1 => cases h
  | case2 => simp [delimitedFrom] at h
  | case3 k depth byte rest ih =>
    rw [delimitedFrom, if_pos rfl] at h
    have later := ih h
    simp only [List.length_cons]
    omega
  | case4 k depth byte rest other nested ih =>
    rw [delimitedFrom.eq_def] at h
    simp only [if_neg other, if_pos nested] at h
    have later := ih h
    rw [List.length_cons]
    omega
  | case5 k rest other plain =>
    rw [delimitedFrom.eq_def] at h
    simp only [if_neg other, if_neg plain, if_true] at h
    cases h
    rw [List.length_cons]
    omega
  | case6 k depth rest other plain deeper ih =>
    rw [delimitedFrom.eq_def] at h
    simp only [if_neg other, if_neg plain, if_true, if_neg deeper] at h
    have later := ih h
    rw [List.length_cons]
    omega
  | case7 k depth byte rest other plain closing ih =>
    rw [delimitedFrom.eq_def] at h
    simp only [if_neg other, if_neg plain, if_neg closing] at h
    have later := ih h
    rw [List.length_cons]
    omega

/-- A delimited text ends ahead, at the latest at the end of the text. -/
theorem delimitedEnd_forward (inside : j < s.length) : Forward s j (delimitedEnd s j) := by
  refine .bind (readAt_gives inside) fun start _ => .pure ?_
  cases closes : delimitedFrom start (closerOf start) (s.drop (j + 1)) (j + 1) 1 with
  | none =>
    simp only [Option.getD_none]
    omega
  | some stop =>
    have bounds := delimitedFrom_bounds _ closes
    rw [List.length_drop] at bounds
    simp only [Option.getD_some]
    omega

theorem stringTail_forward {stop : Nat} (ahead : i < stop) (inside : stop ≤ s.length) :
    Forward s i (stringTail s i stop) := by
  have low := scanWhile_ge isAlpha s stop
  exact emitted (expecting (.pure ⟨by omega, scanWhile_le inside⟩))

/-- Where a program finds an end further on, so does its continuation. -/
theorem Forward.found {p : Run Nat} (h : Forward s i p) : ForwardIf s i (found p) :=
  .bind h fun stop ahead => .pure fun _ same => by
    cases same
    exact ahead

theorem noEnd : ForwardIf s i (pure none) := .pure (by simp)

theorem ended {stop : Nat} (ahead : i < stop ∧ stop ≤ s.length) : ForwardIf s i (pure (some stop)) :=
  .pure fun _ same => by
    cases same
    exact ahead

/-- A guarded attempt goes forward where its guard holds. -/
theorem onlyIf_forward {condition : Bool} {p : Run (Option Nat)} (h : condition = true → ForwardIf s i p) :
    ForwardIf s i (onlyIf condition p) := by
  unfold onlyIf
  split
  · exact h ‹_›
  · exact noEnd

/-- The first of several attempts goes forward when each does. -/
theorem firstFound_forward {tries : List (Run (Option Nat))} (each : ∀ attempt ∈ tries, ForwardIf s i attempt) :
    ForwardIf s i (firstFound tries) := by
  induction tries with
  | nil => exact noEnd
  | cons attempt rest ih =>
    refine .bind (each attempt List.mem_cons_self) fun result ahead => ?_
    split
    · exact ended (ahead _ rfl)
    · exact ih fun other inside => each other (List.mem_cons_of_mem _ inside)

theorem perlSecond_ahead {stop : Nat} {delimiter : UInt8} (ahead : j < stop) (inside : stop ≤ s.length) :
    Gives s (perlSecond s j stop delimiter) fun last => stop ≤ last ∧ last ≤ s.length := by
  unfold perlSecond
  split
  · have low := scanWhile_ge (fun byte => blank byte || byte == newline) s stop
    have high := scanWhile_le (p := fun byte => blank byte || byte == newline) inside
    simp only
    split
    · next byte here =>
      have := (List.getElem?_eq_some_iff.mp here).1
      split
      · exact (delimitedEnd_forward this).mono fun last bounds => by omega
      · exact .pure ⟨low, high⟩
    · exact .pure ⟨low, high⟩
  · split
    · refine .bind (readAt_gives (by omega)) fun last _ => ?_
      split
      · exact (delimitedEnd_forward (by omega)).mono fun last bounds => by omega
      · exact .pure ⟨le_rfl, inside⟩
    · exact .pure ⟨le_rfl, inside⟩

/-- A quote-like operator with one or two parts goes forward. -/
theorem perlQuote_forward {text : Bytes} (before : i < j) (inside : j < s.length) :
    ForwardIf s i (perlQuote s i j text) := by
  unfold perlQuote
  split
  · exact noEnd
  · refine .bind (readAt_gives inside) fun delimiter _ => ?_
    refine .via (fun _ => True) ?_ fun method _ => ?_
    · unfold behindArrow
      split
      · exact .pure trivial
      · exact (readAt_gives (by omega)).bind fun _ _ => (readAt_gives (by omega)).bind fun _ _ => .pure trivial
    · split
      · exact noEnd
      · refine .bind (delimitedEnd_forward inside) fun first ahead => ?_
        refine .via (fun second => i < second ∧ second ≤ s.length) ?_ fun second more => ?_
        · split
          · exact (perlSecond_ahead ahead.1 ahead.2).mono fun last bounds => by omega
          · exact .pure (by omega)
        · exact .bind (stringTail_forward more.1 more.2) fun _ last => ended last

theorem percentLiteral_forward : ForwardIf s i (percentLiteral s i) := by
  unfold percentLiteral
  split
  · exact noEnd
  · next opens =>
    have within : percentAt s i < s.length := has_inside (not_not.mp opens)
    have past : i < percentAt s i := by
      unfold percentAt
      split <;> omega
    refine .bind (delimitedEnd_forward within) fun stop ahead => ?_
    exact .bind (stringTail_forward (by omega) ahead.2) fun _ last => ended last

theorem sigilBody_forward (inside : j < s.length) : Forward s j (sigilBody s j) := by
  refine .bind (readAt_gives inside) fun delimiter here => ?_
  split
  · next triple =>
    have real : delimiter ≠ 0 := by
      rcases triple.1 with rfl | rfl <;> decide
    have three := byteAt_inside triple.2.2 real
    refine .bind (search_gives _ (by omega)) fun found bounds => .pure ?_
    cases found with
    | none =>
      simp only [Option.map_none, Option.getD_none]
      omega
    | some k =>
      have := bounds k rfl
      rw [List.length_take, List.length_drop] at this
      simp only [Option.map_some, Option.getD_some]
      omega
  · exact delimitedEnd_forward inside

theorem sigilLiteral_forward : ForwardIf s i (sigilLiteral s i) := by
  have past : i < sigilNameEnd s i := by
    unfold sigilNameEnd
    split
    · omega
    · exact Nat.lt_of_lt_of_le (Nat.lt_succ_self i) (scanWhile_ge _ _ _)
  unfold sigilLiteral
  simp only
  split
  · exact noEnd
  · next opens =>
    have within : sigilNameEnd s i < s.length := by
      rw [not_or, not_not] at opens
      exact has_inside opens.2
    refine .bind (sigilBody_forward within) fun stop ahead => ?_
    exact .bind (stringTail_forward (by omega) ahead.2) fun _ last => ended last

/-- The end of a regular expression is not behind its start. -/
theorem regexStop_ge (size : Nat) (rest : Bytes) (j : Nat) (in_class : Bool) (short : rest.length ≤ size) :
    j ≤ regexStop rest j in_class := by
  induction size generalizing rest j in_class with
  | zero =>
    obtain rfl := List.length_eq_zero_iff.mp (Nat.le_zero.mp short)
    exact le_rfl
  | succ size ih =>
    cases rest with
    | nil => exact le_rfl
    | cons byte rest =>
      have fewer : rest.length ≤ size := Nat.le_of_succ_le_succ short
      have later : ∀ in_class, j ≤ regexStop rest (j + 1) in_class := fun in_class => by
        have := ih rest (j + 1) in_class fewer
        omega
      rw [regexStop.eq_def]
      simp only
      split
      · exact le_rfl
      · split
        · cases rest with
          | nil => exact Nat.le_succ j
          | cons escaped rest =>
            simp only
            split
            · exact Nat.le_succ j
            · have := ih rest (j + 2) in_class (Nat.le_of_succ_le fewer)
              omega
        · split
          · exact later true
          · split
            · exact later false
            · split
              · exact le_rfl
              · exact later in_class

theorem regexLiteral_forward : ForwardIf s i (regexLiteral s i) := by
  unfold regexLiteral
  simp only
  split
  · exact noEnd
  · have ahead := regexStop_ge _ (s.drop (i + 1)) (i + 1) false le_rfl
    split
    · next slash =>
      have inside := (List.getElem?_eq_some_iff.mp slash).1
      exact .bind (stringTail_forward (by omega) (by omega)) fun _ last => ended last
    · exact .bind (.modify fun _ => ⟨rfl, rfl⟩) fun _ _ => noEnd

theorem rustRaw_forward {text : Bytes} (before : i < j) (inside : j < s.length) : ForwardIf s i (rustRaw s i j text) := by
  unfold rustRaw
  simp only
  generalize (((s.drop j).take 255).takeWhile (· == '#'.toUInt8)).length = hashes
  split
  · next quote =>
    have within := byteAt_inside quote (by decide)
    refine .bind (search_gives _ (by omega)) fun found bounds => emitted (expecting (ended ?_))
    cases found with
    | none =>
      simp only [Option.map_none, Option.getD_none]
      omega
    | some k =>
      have := bounds k rfl
      simp only [Option.map_some, Option.getD_some]
      omega
  · split
    · next raw =>
      have within := identStart_inside raw.2.2
      have := identEnd_bounds (s := s) (j := j + hashes) (by omega)
      exact expecting (ended (by omega))
    · exact noEnd

/-- A raw or a byte string goes forward. -/
theorem rustString_forward {text : Bytes} (before : i < j) (inside : j < s.length) :
    ForwardIf s i (rustString x s i j text) := by
  refine .bind (readAt_gives inside) fun next here => ?_
  split
  · exact rustRaw_forward before inside
  · split
    · next stop literal =>
      have ahead : i < stop ∧ stop ≤ s.length := by
        split at literal
        · have := charLiteralEnd_bounds literal
          omega
        · cases literal
      exact emitted (expecting (ended ahead))
    · split
      · exact .bind (stringRun_forward (by omega) (by omega)) fun _ ahead => ended ahead
      · exact noEnd

theorem tryMarkers_forward : ForwardIf s i (tryMarkers x s i) := by
  unfold tryMarkers
  split
  · next marker chosen =>
    have fits := startsAt_fits (List.find?_some chosen)
    exact Forward.found (emitted (expecting (.pure ⟨by omega, fits.2⟩)))
  · exact noEnd

theorem tryDelimited_forward : ForwardIf s i (tryDelimited x s i) := by
  unfold tryDelimited
  split
  · next d chosen =>
    have opens : startsAt s i d.start = true := by simpa using List.find?_some chosen
    have fits := startsAt_fits opens
    split
    · exact (stringRun_forward (by omega) fits.2).found
    · exact (closed_forward (by omega) fits.2).found
  · exact noEnd

theorem tryLongBrackets_forward {c : UInt8} : ForwardIf s i (tryLongBrackets x s i c) := by
  unfold tryLongBrackets
  split
  · next start level chosen =>
    obtain ⟨marker, _, opens⟩ := List.exists_of_findSome?_eq_some chosen
    unfold longBracketComment at opens
    simp only at opens
    split at opens
    · obtain ⟨found, leveled, same⟩ := Option.map_eq_some_iff.mp opens
      cases same
      have fits := longBracketLevel_fits leveled
      exact (longBracket_forward (by omega) (by omega)).found
    · cases opens
  · split
    · next level leveled =>
      have fits : i + level + 2 ≤ s.length := by
        split at leveled
        · exact longBracketLevel_fits leveled
        · cases leveled
      exact (longBracket_forward le_rfl fits).found
    · exact noEnd

theorem tryNested_forward : ForwardIf s i (tryNested x s i) := by
  unfold tryNested
  split
  · next start close chosen =>
    have opens : startsAt s i start = true := by simpa using List.find?_some chosen
    exact (nestedComment_forward opens).found
  · exact noEnd

/-- A block comment or a block string goes forward. -/
theorem tryBlocks_forward : ForwardIf s i (tryBlocks x s i) := by
  unfold tryBlocks
  split
  · next start close chosen =>
    have opens : startsAt s i start = true := by simpa using List.find?_some chosen
    have fits := startsAt_fits opens
    exact (closed_forward (by omega) fits.2).found
  · exact noEnd

theorem quoteAt_gives (inside : i < s.length) : Gives s (quoteAt x s i) fun _ => True := by
  refine (readAt_gives inside).bind fun byte _ => ?_
  split
  · exact .pure trivial
  · split
    · exact .pure trivial
    · split <;> exact .pure trivial

/-- A quoted string goes forward. -/
theorem tryQuote_forward (inside : i < s.length) : ForwardIf s i (tryQuote x s i) := by
  refine (quoteAt_gives inside).bind fun form _ => ?_
  split
  · exact (stringRun_forward (by omega) (by omega)).found
  · exact noEnd

theorem trySigil_forward (inside : i < s.length) : ForwardIf s i (trySigil s i) := by
  refine (sigilEnd_ahead inside).bind fun stop bounds => ?_
  split
  · next ahead => exact Forward.found (emitted (expecting (.pure ⟨ahead, bounds.2⟩)))
  · exact noEnd

theorem column0_gives (inside : i < s.length) : Gives s (column0 s i) fun _ => True := by
  unfold column0
  split
  · exact .pure trivial
  · exact (readAt_gives (by omega)).bind fun _ _ => .pure trivial

/-- Comments, strings and annotations go forward where there is one. -/
theorem structureAt_forward {c : UInt8} {at_line at_statement : Bool} (here : s[i]? = some c) (other : c ≠ newline) :
    ForwardIf s i (structureAt x s i c at_line at_statement) := by
  have inside : i < s.length := (List.getElem?_eq_some_iff.mp here).1
  refine (column0_gives inside).bind fun start _ => firstFound_forward ?_
  simp only [List.forall_mem_cons, List.not_mem_nil, false_implies, implies_true, and_true]
  refine ⟨?_, tryMarkers_forward, ?_, tryDelimited_forward, ?_, ?_, tryNested_forward, tryBlocks_forward, ?_, ?_, ?_,
    tryQuote_forward inside, ?_, ?_, ?_, ?_, ?_, ?_, ?_, ?_, ?_⟩
  · exact onlyIf_forward fun _ => (lineBlock_forward here other).found
  · refine onlyIf_forward fun opens => (attributeRun_forward ?_).found
    simp only [Bool.and_eq_true, Bool.or_eq_true] at opens
    exact opens.2
  · exact onlyIf_forward fun _ => (toLineEnd_forward here other).found
  · exact onlyIf_forward fun _ => tryLongBrackets_forward
  · exact onlyIf_forward fun _ => (toLineEnd_forward here other).found
  · exact (Gives.gets _).bind fun _ _ => onlyIf_forward fun _ => ended (by omega)
  · exact onlyIf_forward fun _ => (apostrophe_forward inside).found
  · refine onlyIf_forward fun opens => ?_
    exact Forward.found (emitted (expecting (.pure (prefixedCharEnd_bounds opens))))
  · exact onlyIf_forward fun _ => trySigil_forward inside
  · exact onlyIf_forward fun _ => (annotation_forward inside).found
  · exact onlyIf_forward fun _ => (annotation_forward inside).found
  · exact onlyIf_forward fun _ => symbol_forward inside
  · refine (Gives.gets _).bind fun _ _ => onlyIf_forward fun opens => heredocStart_forward ?_
    simp only [Bool.and_eq_true] at opens
    exact opens.2
  · exact (Gives.gets _).bind fun _ _ => onlyIf_forward fun _ => percentLiteral_forward
  · exact onlyIf_forward fun _ => sigilLiteral_forward
  · exact (Gives.gets _).bind fun _ _ => (Gives.gets _).bind fun _ _ => onlyIf_forward fun _ => regexLiteral_forward

theorem stringFormAt_gives (inside : i < s.length) :
    Gives s (stringFormAt x s i) fun found => ∀ form size, found = some (form, size) → i + size ≤ s.length := by
  unfold stringFormAt
  split
  · next d chosen =>
    have opens : startsAt s i d.start = true := by
      have both := List.find?_some chosen
      simp only [Bool.and_eq_true] at both
      exact both.2
    have fits := startsAt_fits opens
    exact .pure fun form size same => by
      cases same
      exact fits.2
  · refine (quoteAt_gives inside).bind fun form _ => .pure fun _ size same => ?_
    cases form with
    | none => cases same
    | some form =>
      cases same
      omega

/-- A word and what it starts go forward. -/
theorem wordRun_forward {stop : Nat} {text key : Bytes} {c : UInt8} (here : s[i]? = some c) (other : c ≠ newline)
    (ahead : i < stop) : ForwardIf s i (wordRun x s i stop text key) := by
  have inside : i < s.length := (List.getElem?_eq_some_iff.mp here).1
  refine (column0_gives inside).bind fun start _ => firstFound_forward ?_
  simp only [List.forall_mem_cons, List.not_mem_nil, false_implies, implies_true, and_true]
  refine ⟨onlyIf_forward fun within => firstFound_forward ?_, ?_, ?_⟩
  · have within : stop < s.length := of_decide_eq_true within
    simp only [List.forall_mem_cons, List.not_mem_nil, false_implies, implies_true, and_true]
    refine ⟨onlyIf_forward fun _ => rustString_forward ahead within, onlyIf_forward fun _ => ?_,
      onlyIf_forward fun _ => perlQuote_forward ahead within⟩
    refine (stringFormAt_gives within).bind fun found bounds => ?_
    split
    · next form size =>
      have := bounds form size rfl
      exact (stringRun_forward (by omega) this).found
    · exact noEnd
  · exact onlyIf_forward fun _ => Forward.found (emitted (.pure ⟨inside, le_rfl⟩))
  · exact onlyIf_forward fun _ => (toLineEnd_forward here other).found

/-- Only a colon or an exclamation mark after the word lengthens its token. -/
theorem classify_inside {text key : Bytes} {stop : Nat} {at_line first after_paren : Bool} {pending : Pending}
    (longer : (classify x s text key stop at_line first after_paren pending).longer = true) : stop < s.length := by
  by_contra outside
  have none : byteAt s stop = 0 := byteAt_outside (Nat.not_lt.mp outside)
  have colon : (byteAt s stop == ':'.toUInt8) = false := by rw [none]; decide
  have bang : (byteAt s stop == '!'.toUInt8) = false := by rw [none]; decide
  unfold classify at longer
  simp only [colon, bang, Bool.and_false, Bool.false_and, Bool.false_eq_true, if_false, apply_ite Reading.longer,
    ite_self] at longer

/-- A word goes forward at any character that is no newline. -/
theorem word_forward {at_line first after_paren : Bool} {pending : Pending} {c : UInt8} (here : s[i]? = some c)
    (other : c ≠ newline) : Forward s i (word x s i at_line first after_paren pending) := by
  have inside : i < s.length := (List.getElem?_eq_some_iff.mp here).1
  have bounds := wordEnd_bounds (x := x) inside
  unfold word
  simp only
  refine .bind (wordRun_forward here other bounds.1) fun result ahead => ?_
  split
  · exact .pure (ahead _ rfl)
  · generalize text_eq : (s.drop i).take (wordEnd x s i - i) = text
    generalize (if x.case_insensitive then lowerInto text else text) = key
    have last : i < (if (classify x s text key (wordEnd x s i) at_line first after_paren pending).longer = true
          then wordEnd x s i + 1 else wordEnd x s i)
        ∧ (if (classify x s text key (wordEnd x s i) at_line first after_paren pending).longer = true
          then wordEnd x s i + 1 else wordEnd x s i) ≤ s.length := by
      split
      · next longer =>
        have := classify_inside longer
        omega
      · exact bounds
    refine .bind (.modify fun _ => ⟨rfl, rfl⟩) fun _ _ => ?_
    split
    · exact emitted (.bind (.whenever (.modify fun _ => ⟨rfl, rfl⟩)) fun _ _ => expecting (.pure last))
    · exact .bind (.whenever (.modify fun _ => ⟨rfl, rfl⟩)) fun _ _ => expecting (.pure last)

/-- Any other character goes forward. -/
theorem punctuation_forward {c : UInt8} (inside : i < s.length) : Forward s i (punctuation x s i c) := by
  unfold punctuation
  simp only
  split
  · exact .bind (.modify fun _ => ⟨rfl, rfl⟩) fun _ _ => .pure ⟨Nat.lt_succ_self i, inside⟩
  · split
    · refine .bind (.gets _) fun frame _ => ?_
      split
      · exact .bind (.modify fun _ => ⟨rfl, rfl⟩) fun _ _ => emitted (stringRun_forward (Nat.lt_succ_self i) inside)
      · exact .bind (.modify fun _ => ⟨rfl, rfl⟩) fun _ _ => .pure ⟨Nat.lt_succ_self i, inside⟩
    · exact .bind (.modify fun _ => ⟨rfl, rfl⟩) fun _ _ => .pure ⟨Nat.lt_succ_self i, inside⟩

/-- The body of a here-document ends ahead with enough fuel. -/
theorem heredocBody_ahead {heredoc : Bytes} {fuel : Nat} (before : i < j) (inside : i < s.length)
    (within : j ≤ s.length + 1) (enough : s.length + 1 < j + fuel) : Forward s i (heredocBody s i heredoc fuel j) := by
  induction fuel generalizing j with
  | zero => omega
  | succ fuel ih =>
    unfold heredocBody
    split
    · exact emitted (.bind (.modify fun _ => ⟨rfl, rfl⟩) fun _ _ => .pure ⟨inside, le_rfl⟩)
    · refine .bind (newlineNext_ahead (by omega)) fun stop bounds => ?_
      split
      · exact emitted (.bind (.modify fun _ => ⟨rfl, rfl⟩) fun _ _ => .pure ⟨by omega, bounds.2⟩)
      · exact ih (by omega) (by omega) (by omega)

/-- The end of a line, with a here-document behind it, goes forward. -/
theorem newlineAt_forward (inside : i < s.length) : Forward s i (newlineAt x s i) := by
  refine .bind (.modify fun _ => ⟨rfl, rfl⟩) fun _ _ => .bind (.gets _) fun heredoc _ => ?_
  split
  · exact .pure ⟨Nat.lt_succ_self i, inside⟩
  · exact heredocBody_ahead (Nat.lt_succ_self i) inside (by omega) (by omega)

theorem numberEndFrom_bounds {hex apostrophes : Bool} (rest : Bytes) (before : Option UInt8) (j : Nat) :
    j ≤ numberEndFrom hex apostrophes rest before j ∧ numberEndFrom hex apostrophes rest before j ≤ j + rest.length := by
  induction rest generalizing before j with
  | nil => exact ⟨le_rfl, le_rfl⟩
  | cons byte rest ih =>
    have later := ih (some byte) (j + 1)
    rw [List.length_cons]
    unfold numberEndFrom
    split
    · omega
    · split
      · omega
      · split <;> omega

/-- A number ends ahead, within the text. -/
theorem genericNumberEnd_bounds {apostrophes : Bool} {c : UInt8} (here : s[i]? = some c) (digit : isDigit c = true) :
    i < genericNumberEnd s i apostrophes ∧ genericNumberEnd s i apostrophes ≤ s.length := by
  obtain ⟨inside, same⟩ := List.getElem?_eq_some_iff.mp here
  have first : isAlnum c = true := by simp [isAlnum, digit]
  have bounds := @numberEndFrom_bounds (hexNumber s i) apostrophes (s.drop (i + 1)) (some c) (i + 1)
  rw [List.length_drop] at bounds
  rw [genericNumberEnd, List.drop_eq_getElem_cons inside, same, numberEndFrom, if_pos (by simp [first])]
  omega

/-- Every step ends at a later position inside the text. -/
theorem step_forward (inside : i < s.length) : Forward s i (step x s i) := by
  refine .bind (readAt_gives inside) fun c here => ?_
  split
  · exact newlineAt_forward inside
  · next other =>
    split
    · exact .pure ⟨Nat.lt_succ_self i, inside⟩
    · refine .bind (.gets _) fun before _ => .bind (.modify fun _ => ⟨rfl, rfl⟩) fun _ _ => ?_
      refine .bind (structureAt_forward here other) fun result ahead => ?_
      split
      · exact .pure (ahead _ rfl)
      · split
        · exact word_forward here other
        · split
          · next digit => exact emitted (expecting (.pure (genericNumberEnd_bounds here digit)))
          · exact punctuation_forward inside

/-- With as much fuel as text is left the loop comes to its end. -/
theorem runFrom_returns {fuel : Nat} (enough : s.length ≤ i + fuel) : Gives s (runFrom x s fuel i) fun _ => True := by
  induction fuel generalizing i with
  | zero =>
    unfold runFrom
    rw [if_neg (by omega)]
    exact .pure trivial
  | succ fuel ih =>
    unfold runFrom
    split
    · next inside => exact (step_forward inside).bind fun next ahead => ih (by omega)
    · exact .pure trivial

/-- The tokenizer ends on every text, and never reads or searches outside it. -/
theorem run_returns : Gives s (run x s) fun _ => True := by
  unfold run
  split
  · exact (newlineNext_gives s 0).bind fun first _ => emitted (runFrom_returns (by omega))
  · exact runFrom_returns (by omega)

end CkGit.Highlight
