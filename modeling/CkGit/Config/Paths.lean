import CkGit.Base.Grammar
import CkGit.Config.Runner

/-!
Relative paths and the text that is written for them: the same names, no longer,
and valid UTF-8 where the path was.
-/
namespace CkGit.Config
open CkGit.Base CkGit.Ci

theorem not_continuation {byte : UInt8} (low : byte ≤ 0x7f) : isContinuation byte = false := by
  unfold isContinuation
  rw [beq_eq_false_iff_ne]
  intro high
  have small : byte.toNat < 2 ^ 7 := Nat.lt_succ_of_le (UInt8.le_iff_toNat_le.mp low)
  have bit := congrArg (fun byte => byte.toNat.testBit 7) high
  simp only [UInt8.toNat_and, Nat.testBit_and, Nat.testBit_lt_two_pow small, Bool.false_and] at bit
  exact absurd bit (by decide)

theorem utf8_cons {byte : UInt8} {rest : Bytes} (low : byte ≤ 0x7f) :
    isValidUtf8 (byte :: rest) = isValidUtf8 rest := by
  conv_lhs => unfold isValidUtf8
  rw [if_pos low]

/-- An ASCII byte splits a text into two that are valid by themselves. -/
theorem utf8_split {front back : Bytes} {byte : UInt8} (low : byte ≤ 0x7f) :
    isValidUtf8 (front ++ byte :: back) = (isValidUtf8 front && isValidUtf8 back) := by
  have plain := not_continuation low
  fun_induction isValidUtf8 front with
  | case1 => exact utf8_cons low
  | case2 first rest below ih => rw [List.cons_append, utf8_cons below, ih]
  | case3 first above two a rest ih =>
    conv_lhs => unfold isValidUtf8
    simp only [List.cons_append, if_neg above, if_pos two, ih, Bool.and_assoc]
  | case4 first rest above two short =>
    cases rest with
    | cons a rest => exact (short a rest rfl).elim
    | nil =>
      conv_lhs => unfold isValidUtf8
      simp [above, two, plain]
  | case5 first above two three a b rest code_point ih =>
    conv_lhs => unfold isValidUtf8
    simp only [List.cons_append, if_neg above, if_neg two, if_pos three, ih, Bool.and_assoc]
    rfl
  | case6 first rest above two three short =>
    conv_lhs => unfold isValidUtf8
    match rest with
    | [] => cases back <;> simp [above, two, three, plain]
    | [a] => simp [above, two, three, plain]
    | a :: b :: rest => exact (short a b rest rfl).elim
  | case7 first above two three four a b c rest code_point ih =>
    conv_lhs => unfold isValidUtf8
    simp only [List.cons_append, if_neg above, if_neg two, if_neg three, if_pos four, ih, Bool.and_assoc]
    rfl
  | case8 first rest above two three four short =>
    conv_lhs => unfold isValidUtf8
    match rest with
    | [] => rcases back with _ | ⟨_, _ | ⟨_, _⟩⟩ <;> simp [above, two, three, four, plain]
    | [a] => cases back <;> simp [above, two, three, four, plain]
    | [a, b] => simp [above, two, three, four, plain]
    | a :: b :: c :: rest => exact (short a b c rest rfl).elim
  | case9 first rest above two three four =>
    conv_lhs => unfold isValidUtf8
    simp [above, two, three, four]

/-- Joined by an ASCII byte, a text is valid when its parts are. -/
theorem utf8_join {byte : UInt8} {parts : List Bytes} (low : byte ≤ 0x7f) :
    isValidUtf8 ([byte].intercalate parts) = parts.all isValidUtf8 := by
  induction parts with
  | nil => rfl
  | cons first rest ih =>
    cases rest with
    | nil => simp
    | cons second more =>
      rw [List.intercalate_cons_cons, List.append_assoc, List.singleton_append, utf8_split low, ih]
      rfl

/-- A joined text is as long as its parts, each with a separator but one. -/
theorem intercalate_length {byte : UInt8} {parts : List Bytes} (filled : parts ≠ []) :
    ([byte].intercalate parts).length + 1 = (parts.map fun part => part.length + 1).sum := by
  induction parts with
  | nil => exact absurd rfl filled
  | cons first rest ih =>
    cases rest with
    | nil => simp
    | cons second more =>
      have later := ih (List.cons_ne_nil _ _)
      rw [List.intercalate_cons_cons, List.map_cons, List.sum_cons, ← later, List.length_append, List.length_append,
        List.length_singleton]
      omega

theorem sum_le_of_sublist {fewer parts : List Bytes} (sublist : fewer.Sublist parts) :
    (fewer.map fun part => part.length + 1).sum ≤ (parts.map fun part => part.length + 1).sum := by
  induction sublist with
  | slnil => exact Nat.le_refl _
  | cons _ _ ih => exact Nat.le_trans ih (by rw [List.map_cons, List.sum_cons]; exact Nat.le_add_left _ _)
  | cons_cons _ _ ih => simpa using ih

/-- A byte of a joined text is the separator or of a part. -/
theorem mem_intercalate {byte separator : UInt8} {parts : List Bytes} (member : byte ∈ [separator].intercalate parts) :
    byte = separator ∨ ∃ part ∈ parts, byte ∈ part := by
  induction parts with
  | nil => cases member
  | cons first rest ih =>
    cases rest with
    | nil => exact .inr ⟨first, .head _, by simpa using member⟩
    | cons second more =>
      rw [List.intercalate_cons_cons, List.mem_append, List.mem_append, List.mem_singleton] at member
      rcases member with (here | between) | later
      · exact .inr ⟨first, .head _, here⟩
      · exact .inl between
      · rcases ih later with between | ⟨part, inside, within⟩
        exacts [.inl between, .inr ⟨part, .tail _ inside, within⟩]

theorem within_intercalate {byte separator : UInt8} {part : Bytes} {parts : List Bytes} (inside : part ∈ parts)
    (within : byte ∈ part) : byte ∈ [separator].intercalate parts := by
  induction parts with
  | nil => cases inside
  | cons first rest ih =>
    cases rest with
    | nil =>
      rw [List.mem_singleton] at inside
      rw [List.intercalate_singleton, ← inside]
      exact within
    | cons second more =>
      rw [List.intercalate_cons_cons]
      rcases List.mem_cons.mp inside with rfl | later
      · exact List.mem_append_left _ (List.mem_append_left _ within)
      · exact List.mem_append_right _ (ih later)

theorem namesOf_sublist (pieces : List Bytes) : (namesOf pieces).Sublist pieces := by
  unfold namesOf
  dsimp only
  split
  · next trailing =>
    obtain ⟨front, rfl⟩ := List.getLast?_eq_some_iff.mp trailing.2
    rw [List.filter_append]
    simp
  · exact List.filter_sublist

theorem filled_of_filter {pieces : List Bytes} : ∀ name ∈ pieces.filter (!·.isEmpty), name ≠ [] := by
  intro name member none
  have := (List.mem_filter.mp member).2
  rw [none] at this
  cases this

/-- Of trailing slashes one empty name stays. -/
theorem namesOf_trailing {pieces : List Bytes} (some_name : pieces.filter (!·.isEmpty) ≠ [])
    (trailing : pieces.getLast? = some []) : namesOf pieces = pieces.filter (!·.isEmpty) ++ [[]] :=
  if_pos ⟨some_name, trailing⟩

/-- Names are taken apart only once. -/
theorem namesOf_again (pieces : List Bytes) : namesOf (namesOf pieces) = namesOf pieces := by
  have kept : (pieces.filter (!·.isEmpty)).filter (!·.isEmpty) = pieces.filter (!·.isEmpty) := by simp
  by_cases trailing : pieces.filter (!·.isEmpty) ≠ [] ∧ pieces.getLast? = some []
  · have same : (pieces.filter (!·.isEmpty) ++ [([] : Bytes)]).filter (!·.isEmpty) = pieces.filter (!·.isEmpty) := by
      rw [List.filter_append, kept]
      exact List.append_nil _
    have some_name : (pieces.filter (!·.isEmpty) ++ [([] : Bytes)]).filter (!·.isEmpty) ≠ [] := by
      rw [same]
      exact trailing.1
    rw [namesOf_trailing trailing.1 trailing.2, namesOf_trailing some_name List.getLast?_concat, same]
  · have plain : namesOf pieces = pieces.filter (!·.isEmpty) := if_neg trailing
    have no_end : ¬((pieces.filter (!·.isEmpty)).filter (!·.isEmpty) ≠ []
        ∧ (pieces.filter (!·.isEmpty)).getLast? = some []) := by
      rintro ⟨-, last⟩
      exact filled_of_filter _ (List.mem_of_getLast? last) rfl
    rw [plain]
    exact (if_neg no_end).trans kept

section
variable {path : Bytes}

/-- A path that does not begin with a slash begins with a name. -/
theorem relative_names (filled : path ≠ []) (relative : isAbsolute path = false) :
    ∃ first rest, pathNames path = first :: rest ∧ first ≠ [] := by
  obtain ⟨byte, tail, rfl⟩ := List.exists_cons_of_ne_nil filled
  have other : byte ≠ slash := by
    rintro rfl
    cases relative
  obtain ⟨piece, pieces, split⟩ := List.exists_cons_of_ne_nil (List.splitOn_ne_nil slash tail)
  have begins : (byte :: tail).splitOn slash = (byte :: piece) :: pieces := by
    rw [List.splitOn_cons_eq_if_modifyHead, split, if_neg (by simpa using other)]
    rfl
  have kept : ((byte :: piece) :: pieces).filter (!·.isEmpty) = (byte :: piece) :: pieces.filter (!·.isEmpty) := rfl
  unfold pathNames namesOf
  rw [begins]
  dsimp only
  rw [kept]
  split
  · exact ⟨_, _, rfl, List.cons_ne_nil _ _⟩
  · exact ⟨_, _, rfl, List.cons_ne_nil _ _⟩

theorem names_slashless : ∀ name ∈ pathNames path, slash ∉ name := fun _ member =>
  Grammar.splitOn_avoids ((namesOf_sublist _).subset member)

/-- The generic text of a relative path is its names with single slashes. -/
theorem generic_relative (relative : isAbsolute path = false) :
    genericText path = [slash].intercalate (pathNames path) := by
  rw [genericText, relative]
  rfl

/-- A path and its generic text have the same names. -/
theorem generic_names (filled : path ≠ []) (relative : isAbsolute path = false) :
    pathNames (genericText path) = pathNames path := by
  obtain ⟨first, rest, names, -⟩ := relative_names filled relative
  have some_name : pathNames path ≠ [] := by
    rw [names]
    exact List.cons_ne_nil _ _
  rw [generic_relative relative, pathNames, List.splitOn_intercalate slash names_slashless some_name]
  exact namesOf_again _

theorem generic_begins (filled : path ≠ []) (relative : isAbsolute path = false) :
    genericText path ≠ [] ∧ isAbsolute (genericText path) = false := by
  obtain ⟨first, rest, names, some_byte⟩ := relative_names filled relative
  obtain ⟨byte, tail, rfl⟩ := List.exists_cons_of_ne_nil some_byte
  have other : byte ≠ slash := fun same =>
    names_slashless _ (names ▸ List.mem_cons_self) (same ▸ List.mem_cons_self)
  have begins : ∃ more, genericText path = byte :: more := by
    rw [generic_relative relative, names]
    cases rest with
    | nil => exact ⟨tail, by simp⟩
    | cons second more =>
      exact ⟨tail ++ ([slash] ++ [slash].intercalate (second :: more)), by simp [List.intercalate_cons_cons]⟩
  obtain ⟨more, begins⟩ := begins
  rw [begins]
  refine ⟨List.cons_ne_nil _ _, ?_⟩
  unfold isAbsolute
  rw [List.head?_cons, beq_eq_false_iff_ne]
  exact fun same => other (Option.some.inj same)

/-- A path and its generic text are equal as paths. -/
theorem generic_key (filled : path ≠ []) (relative : isAbsolute path = false) :
    pathKey (genericText path) = pathKey path := by
  rw [pathKey, pathKey, generic_names filled relative, (generic_begins filled relative).2, relative]

theorem generic_avoids {byte : UInt8} (relative : isAbsolute path = false) (other : byte ≠ slash)
    (absent : byte ∉ path) : byte ∉ genericText path := by
  intro member
  rw [generic_relative relative] at member
  rcases mem_intercalate member with same | ⟨name, inside, within⟩
  · exact other same
  · have piece := (namesOf_sublist _).subset inside
    have whole : byte ∈ [slash].intercalate (path.splitOn slash) := within_intercalate piece within
    rw [List.intercalate_splitOn] at whole
    exact absent whole

/-- The generic text is not longer than the path. -/
theorem generic_short (filled : path ≠ []) (relative : isAbsolute path = false) :
    (genericText path).length ≤ path.length := by
  obtain ⟨first, rest, names, -⟩ := relative_names filled relative
  have some_name : pathNames path ≠ [] := by
    rw [names]
    exact List.cons_ne_nil _ _
  have fewer := sum_le_of_sublist (namesOf_sublist (path.splitOn slash))
  have written := @intercalate_length slash _ some_name
  have whole := @intercalate_length slash _ (List.splitOn_ne_nil slash path)
  rw [List.intercalate_splitOn] at whole
  rw [generic_relative relative]
  have same : pathNames path = namesOf (path.splitOn slash) := rfl
  rw [same] at written ⊢
  omega

theorem generic_utf8 (relative : isAbsolute path = false) (utf8 : isValidUtf8 path = true) :
    isValidUtf8 (genericText path) = true := by
  have low : slash ≤ 0x7f := by decide
  have parts : (path.splitOn slash).all isValidUtf8 = true := by
    rw [← utf8_join low, List.intercalate_splitOn]
    exact utf8
  rw [generic_relative relative, utf8_join low]
  exact List.all_eq_true.mpr fun name member => List.all_eq_true.mp parts name ((namesOf_sublist _).subset member)

end

end CkGit.Config
