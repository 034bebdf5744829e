import Mathlib.Data.List.TakeWhile
import CkGit.Base.Text
import CkGit.Base.Wildcard

/-!
The exclusion patterns of the working tree scan: globMatches and isExcluded
(src/common/git_repository.cpp). The path relative to the scan root is an
input, none where it has none; a loop out of fuel gives no answer.
-/
namespace CkGit.Discovery
open CkGit.Base

def asterisk : UInt8 := '*'.toUInt8

/-- Both positions, and where the last star and the text it has to skip are. -/
structure Glob where
  pattern_index : Nat := 0
  value_index : Nat := 0
  star : Option (Nat × Nat) := none
  deriving DecidableEq, Repr

variable (pattern value : Bytes)

/-- One turn of the loop, none when it returns false. -/
def globStep (here : Glob) : Option Glob :=
  if pattern[here.pattern_index]? = some asterisk then
    some { here with pattern_index := here.pattern_index + 1, star := some (here.pattern_index, here.value_index) }
  else if here.pattern_index < pattern.length ∧ pattern[here.pattern_index]? = value[here.value_index]? then
    some { here with pattern_index := here.pattern_index + 1, value_index := here.value_index + 1 }
  else match here.star with
  | some (star_index, star_value_index) =>
    some ⟨star_index + 1, star_value_index + 1, some (star_index, star_value_index + 1)⟩
  | none => none

/-- Past the stars that end a pattern. -/
def pastStars (pattern_index : Nat) : Nat :=
  pattern_index + ((pattern.drop pattern_index).takeWhile (· == asterisk)).length

def globLoop (fuel : Nat) (here : Glob) : Option Bool :=
  if here.value_index < value.length then
    match fuel with
    | 0 => none
    | fuel + 1 =>
      match globStep pattern value here with
      | some next => globLoop fuel next
      | none => some false
  else some (pastStars pattern here.pattern_index == pattern.length)

def globFuel : Nat := (value.length + 2) * (pattern.length + value.length + 1)

def globMatches : Option Bool := globLoop pattern value (globFuel pattern value) {}

/-- The pattern, and then the pattern without a leading "*/", until one matches. -/
def anyMatches (candidate : Bytes) (exclusions : List Bytes) : Option Bool :=
  match exclusions with
  | [] => some false
  | pattern :: rest => do
    if ← globMatches pattern candidate then return true
    if (ascii "*/").isPrefixOf pattern then
      if ← globMatches (pattern.drop 2) candidate then return true
    anyMatches candidate rest

def isExcluded (relative : Option Bytes) (exclusions : List Bytes) : Option Bool :=
  match relative with
  | none => some false
  | some candidate => anyMatches candidate exclusions

variable {pattern value}

/-- Where the loop stands: since the last star it has matched literals only. -/
structure Standing (pattern value : Bytes) (here : Glob) : Prop where
  inside : here.pattern_index ≤ pattern.length ∧ here.value_index ≤ value.length
  since : ∀ star_index star_value_index, here.star = some (star_index, star_value_index) →
    pattern[star_index]? = some asterisk ∧ star_value_index ≤ here.value_index
      ∧ ∃ literals, asterisk ∉ literals ∧ pattern.drop (star_index + 1) = literals ++ pattern.drop here.pattern_index
        ∧ value.drop star_value_index = literals ++ value.drop here.value_index

/-- What the rest of the loop decides: the rest of the pattern on the rest of the
value, or the pattern after the last star on a later part of the value. -/
def Pending (pattern value : Bytes) (here : Glob) : Prop :=
  Denotes asterisk (pattern.drop here.pattern_index) (value.drop here.value_index)
    ∨ ∃ star_index star_value_index, here.star = some (star_index, star_value_index)
      ∧ ∃ k ≤ value.length, star_value_index < k ∧ Denotes asterisk (pattern.drop (star_index + 1)) (value.drop k)

/-- The text still to be skipped by the last star, then the two positions. -/
def remaining (pattern value : Bytes) (here : Glob) : Nat :=
  (match here.star with
    | none => value.length + 1
    | some (_, star_value_index) => value.length - star_value_index) * (pattern.length + value.length + 1)
  + ((pattern.length - here.pattern_index) + (value.length - here.value_index))

variable {here next : Glob}

theorem drop_of_get {text : Bytes} {i : Nat} {byte : UInt8} (there : text[i]? = some byte) :
    text.drop i = byte :: text.drop (i + 1) := by
  obtain ⟨inside, rfl⟩ := List.getElem?_eq_some_iff.mp there
  exact List.drop_eq_getElem_cons inside

/-- A star: whatever an earlier star could still skip, this one can. -/
theorem star_step (standing : Standing pattern value here) (wild : pattern[here.pattern_index]? = some asterisk) :
    let next : Glob := { here with
      pattern_index := here.pattern_index + 1, star := some (here.pattern_index, here.value_index) }
    Standing pattern value next ∧ (Pending pattern value here ↔ Pending pattern value next) := by
  intro next
  have inside := (List.getElem?_eq_some_iff.mp wild).1
  have rest := drop_of_get wild
  refine ⟨⟨⟨inside, standing.inside.2⟩, ?_⟩, ?_⟩
  · rintro star_index star_value_index ⟨⟩
    exact ⟨wild, Nat.le_refl _, [], nofun, rfl, rfl⟩
  have now : Pending pattern value next
      ↔ Denotes asterisk (pattern.drop here.pattern_index) (value.drop here.value_index) := by
    rw [rest, Denotes.wildcard_iff]
    constructor
    · rintro (h | ⟨_, _, ⟨⟩, k, bound, after, h⟩)
      · exact ⟨0, Nat.zero_le _, h⟩
      · refine ⟨k - here.value_index, ?_, ?_⟩
        · rw [List.length_drop]
          omega
        · rwa [List.drop_drop, Nat.add_sub_cancel' (Nat.le_of_lt after)]
    · rintro ⟨k, bound, h⟩
      rw [List.drop_drop] at h
      rw [List.length_drop] at bound
      have within := standing.inside.2
      cases k with
      | zero => exact .inl h
      | succ k => exact .inr ⟨_, _, rfl, here.value_index + (k + 1), by omega, by omega, h⟩
  rw [now]
  refine ⟨?_, .inl⟩
  rintro (h | ⟨star_index, star_value_index, same, k, bound, after, h⟩)
  · exact h
  · obtain ⟨_, _, literals, free, split, text⟩ := standing.since _ _ same
    rw [split, rest] at h
    rw [rest]
    refine Denotes.greedy (k := k - star_value_index) free ?_
    rwa [← text, List.drop_drop, Nat.add_sub_cancel' (Nat.le_of_lt after)]

/-- The same byte in both. -/
theorem literal_step (standing : Standing pattern value here) {byte : UInt8} (other : byte ≠ asterisk)
    (first : pattern[here.pattern_index]? = some byte) (same : value[here.value_index]? = some byte) :
    let next : Glob := { here with pattern_index := here.pattern_index + 1, value_index := here.value_index + 1 }
    Standing pattern value next ∧ (Pending pattern value here ↔ Pending pattern value next) := by
  intro next
  have pattern_rest := drop_of_get first
  have value_rest := drop_of_get same
  refine ⟨⟨⟨(List.getElem?_eq_some_iff.mp first).1, (List.getElem?_eq_some_iff.mp same).1⟩, ?_⟩, or_congr ?_ Iff.rfl⟩
  · intro star_index star_value_index found
    obtain ⟨wild, before, literals, free, split, text⟩ := standing.since _ _ found
    refine ⟨wild, Nat.le_succ_of_le before, literals ++ [byte], ?_, ?_, ?_⟩
    · simpa [free] using Ne.symm other
    · rw [split, pattern_rest, List.append_assoc]
      rfl
    · rw [text, value_rest, List.append_assoc]
      rfl
  · rw [pattern_rest, value_rest, Denotes.literal_iff other]
    constructor
    · rintro ⟨rest, split, h⟩
      obtain ⟨-, rfl⟩ := List.cons.inj split
      exact h
    · exact fun h => ⟨_, rfl, h⟩

/-- No star and no equal byte: the rest of the pattern does not denote the rest of the value. -/
theorem mismatch (more : here.value_index < value.length) (plain : pattern[here.pattern_index]? ≠ some asterisk)
    (differs : ¬(here.pattern_index < pattern.length ∧ pattern[here.pattern_index]? = value[here.value_index]?)) :
    ¬Denotes asterisk (pattern.drop here.pattern_index) (value.drop here.value_index) := by
  intro h
  have value_rest := List.drop_eq_getElem_cons more
  cases first : pattern[here.pattern_index]? with
  | none =>
    rw [List.drop_eq_nil_of_le (List.getElem?_eq_none_iff.mp first), Denotes.nil_iff, value_rest] at h
    cases h
  | some byte =>
    have other : byte ≠ asterisk := fun same => plain (same ▸ first)
    rw [drop_of_get first, Denotes.literal_iff other] at h
    obtain ⟨rest, split, -⟩ := h
    rw [value_rest] at split
    have same := (List.cons.inj split).1
    refine differs ⟨(List.getElem?_eq_some_iff.mp first).1, ?_⟩
    rw [first, List.getElem?_eq_getElem more, same]

/-- Back to the last star, which skips one byte more. -/
theorem back_step (standing : Standing pattern value here) (more : here.value_index < value.length)
    {star_index star_value_index : Nat} (last : here.star = some (star_index, star_value_index))
    (fails : ¬Denotes asterisk (pattern.drop here.pattern_index) (value.drop here.value_index)) :
    let next : Glob := ⟨star_index + 1, star_value_index + 1, some (star_index, star_value_index + 1)⟩
    Standing pattern value next ∧ (Pending pattern value here ↔ Pending pattern value next) := by
  intro next
  obtain ⟨wild, before, -⟩ := standing.since _ _ last
  refine ⟨⟨⟨(List.getElem?_eq_some_iff.mp wild).1, by show star_value_index + 1 ≤ _; omega⟩, ?_⟩, ?_⟩
  · rintro _ _ ⟨⟩
    exact ⟨wild, Nat.le_refl _, [], nofun, rfl, rfl⟩
  constructor
  · rintro (h | ⟨_, _, found, k, bound, after, h⟩)
    · exact absurd h fails
    · obtain ⟨rfl, rfl⟩ := Prod.mk.inj (Option.some.inj (last.symm.trans found))
      by_cases soon : k = star_value_index + 1
      · subst soon
        exact .inl h
      · exact .inr ⟨_, _, rfl, k, bound, by omega, h⟩
  · rintro (h | ⟨_, _, ⟨⟩, k, bound, after, h⟩)
    · exact .inr ⟨_, _, last, star_value_index + 1, by omega, by omega, h⟩
    · exact .inr ⟨_, _, last, k, bound, by omega, h⟩

/-- One turn keeps what is to be decided and has less left to do. -/
theorem globStep_spec (standing : Standing pattern value here) (more : here.value_index < value.length) :
    match globStep pattern value here with
    | some next => Standing pattern value next ∧ (Pending pattern value here ↔ Pending pattern value next)
        ∧ remaining pattern value next < remaining pattern value here
    | none => ¬Pending pattern value here := by
  unfold globStep
  by_cases wild : pattern[here.pattern_index]? = some asterisk
  · rw [if_pos wild]
    obtain ⟨later, same⟩ := star_step standing wild
    refine ⟨later, same, ?_⟩
    have inside := (List.getElem?_eq_some_iff.mp wild).1
    cases last : here.star with
    | none =>
      have fewer := Nat.mul_le_mul_right (pattern.length + value.length + 1)
        (show value.length - here.value_index ≤ value.length by omega)
      simp only [remaining, last]
      rw [Nat.add_mul, Nat.one_mul]
      omega
    | some star =>
      obtain ⟨star_index, star_value_index⟩ := star
      have before := (standing.since _ _ last).2.1
      have fewer := Nat.mul_le_mul_right (pattern.length + value.length + 1)
        (show value.length - here.value_index ≤ value.length - star_value_index by omega)
      simp only [remaining, last]
      omega
  · rw [if_neg wild]
    by_cases equal : here.pattern_index < pattern.length ∧ pattern[here.pattern_index]? = value[here.value_index]?
    · rw [if_pos equal]
      have first := List.getElem?_eq_getElem equal.1
      have other : pattern[here.pattern_index] ≠ asterisk := fun same => wild (first.trans (congrArg some same))
      obtain ⟨later, same⟩ := literal_step standing other first (equal.2.symm.trans first)
      refine ⟨later, same, ?_⟩
      simp only [remaining]
      omega
    · rw [if_neg equal]
      have fails := mismatch more wild equal
      cases last : here.star with
      | none =>
        rintro (h | ⟨_, _, found, _⟩)
        · exact fails h
        · rw [last] at found
          cases found
      | some star =>
        obtain ⟨star_index, star_value_index⟩ := star
        obtain ⟨later, same⟩ := back_step standing more last fails
        refine ⟨later, same, ?_⟩
        have before := (standing.since _ _ last).2.1
        have shorter : value.length - star_value_index = (value.length - (star_value_index + 1)) + 1 := by omega
        simp only [remaining, last]
        rw [shorter, Nat.add_mul, Nat.one_mul]
        omega

/-- At the end of the value only stars may be left, and no other part of the value is shorter. -/
theorem pending_end (standing : Standing pattern value here) (done : value.length ≤ here.value_index) :
    Pending pattern value here ↔ pastStars pattern here.pattern_index = pattern.length := by
  have nothing : value.drop here.value_index = [] := List.drop_eq_nil_of_le done
  have stars : Denotes asterisk (pattern.drop here.pattern_index) []
      ↔ pastStars pattern here.pattern_index = pattern.length := by
    have whole := congrArg List.length
      (List.takeWhile_append_dropWhile (p := (· == asterisk)) (l := pattern.drop here.pattern_index))
    have within := standing.inside.1
    rw [List.length_append, List.length_drop] at whole
    rw [Denotes.empty_iff, pastStars]
    constructor
    · intro all
      have kept : (pattern.drop here.pattern_index).takeWhile (· == asterisk) = pattern.drop here.pattern_index :=
        List.takeWhile_eq_self_iff.mpr fun byte member => beq_iff_eq.mpr (all byte member)
      rw [kept, List.length_drop]
      omega
    · intro all byte member
      have empty : (pattern.drop here.pattern_index).dropWhile (· == asterisk) = [] :=
        List.length_eq_zero_iff.mp (by omega)
      exact beq_iff_eq.mp (List.dropWhile_eq_nil_iff.mp empty byte member)
  rw [← stars, Pending, nothing]
  refine ⟨?_, .inl⟩
  rintro (h | ⟨star_index, star_value_index, last, k, bound, after, h⟩)
  · exact h
  · obtain ⟨_, _, literals, free, split, text⟩ := standing.since _ _ last
    rw [split, Denotes.literals_iff free] at h
    obtain ⟨rest, left, _⟩ := h
    have long := congrArg List.length text
    have short := congrArg List.length left
    rw [nothing] at long
    simp only [List.length_drop, List.length_append, List.length_nil] at long short
    omega

theorem globLoop_spec {fuel : Nat} (standing : Standing pattern value here)
    (enough : remaining pattern value here < fuel) :
    ∃ result, globLoop pattern value fuel here = some result ∧ (result = true ↔ Pending pattern value here) := by
  induction fuel generalizing here with
  | zero => omega
  | succ fuel ih =>
    unfold globLoop
    split
    · next more =>
      have turn := globStep_spec standing more
      cases step : globStep pattern value here with
      | none =>
        rw [step] at turn
        exact ⟨false, rfl, by simpa using turn⟩
      | some next =>
        rw [step] at turn
        obtain ⟨later, same, fewer⟩ := turn
        obtain ⟨result, ends, decides⟩ := ih later (by omega)
        exact ⟨result, ends, decides.trans same.symm⟩
    · next done =>
      exact ⟨_, rfl, beq_iff_eq.trans (pending_end standing (Nat.not_lt.mp done)).symm⟩

/-- The matcher ends, and is right on every pattern and text. -/
theorem globMatches_spec (pattern value : Bytes) :
    ∃ result, globMatches pattern value = some result ∧ (result = true ↔ Denotes asterisk pattern value) := by
  have standing : Standing pattern value {} := ⟨⟨Nat.zero_le _, Nat.zero_le _⟩, nofun⟩
  have enough : remaining pattern value {} < globFuel pattern value := by
    simp only [remaining, globFuel, Nat.add_mul]
    omega
  obtain ⟨result, ends, decides⟩ := globLoop_spec standing enough
  refine ⟨result, ends, decides.trans ⟨?_, .inl⟩⟩
  rintro (h | ⟨_, _, none, _⟩)
  · exact h
  · cases none

/-- The text is in the language of the pattern, or of the pattern without a leading "*/". -/
def Excludes (pattern candidate : Bytes) : Prop :=
  Denotes asterisk pattern candidate ∨ ∃ rest, pattern = ascii "*/" ++ rest ∧ Denotes asterisk rest candidate

theorem anyMatches_spec (candidate : Bytes) (exclusions : List Bytes) :
    ∃ result, anyMatches candidate exclusions = some result
      ∧ (result = true ↔ ∃ pattern ∈ exclusions, Excludes pattern candidate) := by
  induction exclusions with
  | nil => exact ⟨false, rfl, by simp⟩
  | cons pattern rest ih =>
    obtain ⟨whole, whole_ends, whole_decides⟩ := globMatches_spec pattern candidate
    obtain ⟨inner, inner_ends, inner_decides⟩ := globMatches_spec (pattern.drop 2) candidate
    obtain ⟨later, later_ends, later_decides⟩ := ih
    have leading : Excludes pattern candidate
        ↔ whole = true ∨ ((ascii "*/").isPrefixOf pattern = true ∧ inner = true) := by
      rw [Excludes, whole_decides, inner_decides, List.isPrefixOf_iff_prefix]
      refine or_congr Iff.rfl ⟨?_, ?_⟩
      · rintro ⟨rest, rfl, h⟩
        exact ⟨List.prefix_append _ _, h⟩
      · rintro ⟨⟨rest, rfl⟩, h⟩
        exact ⟨rest, rfl, h⟩
    refine ⟨whole || ((ascii "*/").isPrefixOf pattern && inner) || later, ?_, ?_⟩
    · simp only [anyMatches, whole_ends, inner_ends, later_ends]
      cases whole <;> cases (ascii "*/").isPrefixOf pattern <;> cases inner <;> rfl
    · rw [Bool.or_eq_true, Bool.or_eq_true, Bool.and_eq_true, ← leading, later_decides]
      simp

/-- globMatches ends and decides the language of the pattern; a path is excluded exactly when one of the
patterns excludes it. -/
theorem exclusions_match_their_language :
    (∀ pattern value : Bytes, ∃ result, globMatches pattern value = some result
      ∧ (result = true ↔ Denotes asterisk pattern value))
    ∧ ∀ (relative : Option Bytes) (exclusions : List Bytes), ∃ result, isExcluded relative exclusions = some result
      ∧ (result = true ↔ ∃ candidate, relative = some candidate ∧ ∃ pattern ∈ exclusions, Excludes pattern candidate) := by
  refine ⟨globMatches_spec, fun relative exclusions => ?_⟩
  cases relative with
  | none => exact ⟨false, rfl, by simp⟩
  | some candidate =>
    obtain ⟨result, ends, decides⟩ := anyMatches_spec candidate exclusions
    exact ⟨result, ends, by simpa using decides⟩

end CkGit.Discovery
