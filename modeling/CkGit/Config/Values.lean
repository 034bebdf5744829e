import CkGit.Base.Search
import CkGit.Base.Utf8
import CkGit.Ci.Names
import CkGit.Config.Lines

/-!
The checks of keys and values that the configuration files share
(src/common/text.cpp, src/common/validation.cpp), and what passes them: keys
that fit a line, and values without controls or outer whitespace.
-/
namespace CkGit.Config
open CkGit.Base CkGit.Ci

def hasControlCharacter (value : Bytes) : Bool := value.any isControl

/-- std::isspace in the C locale. -/
def isSpace (byte : UInt8) : Bool := byte == 0x20 || (0x09 ≤ byte && byte ≤ 0x0d)

def hasOuterWhitespace (value : Bytes) : Bool := value.head?.any isSpace || value.getLast?.any isSpace

def isAbsolute (path : Bytes) : Bool := path.head? == some '/'.toUInt8

/-- A path is its bytes. -/
def pathFromUtf8 (value : Bytes) : Except Refusal Bytes :=
  if !isValidUtf8 value || value.contains 0 then throw (.invalidArgument "invalid UTF-8 filesystem path") else pure value

/-- Before and after the first equals sign, where something stands before it. -/
def cut (line : Bytes) : Option Setting :=
  match findFrom (· == equals) line 0 with
  | none => none
  | some equals_at => if equals_at = 0 then none else some (line.take equals_at, line.drop (equals_at + 1))

def isValidSshCloneTarget (value : Bytes) : Bool :=
  let safe := fun component : Bytes =>
    component.head? != some '-'.toUInt8 && component.head? != some '.'.toUInt8
      && component.getLast? != some '.'.toUInt8
      && component.all fun byte => isAlnum byte || byte == '-'.toUInt8 || byte == '_'.toUInt8 || byte == '.'.toUInt8
  match value.splitOn '@'.toUInt8 with
  | [user, host] => value.length ≤ 255 && !user.isEmpty && !host.isEmpty && safe user && safe host
  | _ => false

variable {key value line : Bytes} {setting : Setting}

theorem cut_line (filled : key ≠ []) (free : equals ∉ key) :
    cut (Setting.line (key, value)) = some (key, value) := by
  have before : ∀ byte ∈ key, (byte == equals) = false := fun byte member =>
    beq_eq_false_iff_ne.mpr fun same => free (same ▸ member)
  have found : findFrom (· == equals) (key ++ equals :: value) 0 = some key.length :=
    findFrom_zero.mpr ⟨key, equals, value, rfl, before, beq_self_eq_true _, rfl⟩
  have rest : (key ++ equals :: value).drop (key.length + 1) = value := by
    rw [← List.drop_drop, List.drop_left]
    rfl
  unfold cut
  rw [Setting.line, found]
  dsimp only
  rw [if_neg fun none => filled (List.length_eq_zero_iff.mp none), List.take_left, rest]

theorem cut_some (found : cut line = some setting) : line = setting.line ∧ equals ∉ setting.1 ∧ setting.1 ≠ [] := by
  unfold cut at found
  split at found
  · cases found
  · next equals_at first =>
    obtain ⟨key, byte, value, rfl, plain, hit, rfl⟩ := findFrom_zero.mp first
    cases eq_of_beq hit
    split at found
    · cases found
    · next filled =>
      have rest : (key ++ equals :: value).drop (key.length + 1) = value := by
        rw [← List.drop_drop, List.drop_left]
        rfl
      rw [List.take_left, rest] at found
      cases found
      refine ⟨rfl, fun member => ?_, fun none => filled (List.length_eq_zero_iff.mpr none)⟩
      exact absurd (plain equals member) (by decide)

/-- No control, and no blank at either end. -/
structure Tidy (value : Bytes) : Prop where
  plain : hasControlCharacter value = false
  trimmed : hasOuterWhitespace value = false

instance : Decidable (Tidy value) := decidable_of_iff
  (hasControlCharacter value = false ∧ hasOuterWhitespace value = false)
  ⟨fun both => ⟨both.1, both.2⟩, fun tidy => ⟨tidy.plain, tidy.trimmed⟩⟩

theorem control_free {byte : UInt8} (plain : hasControlCharacter value = false) (control : isControl byte = true) :
    byte ∉ value := fun member => List.any_eq_false.mp plain byte member control

theorem pathFromUtf8_ok (utf8 : isValidUtf8 value = true) (plain : hasControlCharacter value = false) :
    pathFromUtf8 value = .ok value := by
  have no_zero : value.contains 0 = false := by
    rw [Bool.eq_false_iff]
    exact fun member => control_free plain (by decide) (List.contains_iff_mem.mp member)
  unfold pathFromUtf8
  rw [utf8, no_zero]
  rfl

theorem pathFromUtf8_some {path : Bytes} (made : pathFromUtf8 value = .ok path) :
    path = value ∧ isValidUtf8 value = true := by
  unfold pathFromUtf8 at made
  split at made
  · cases made
  · next good =>
    simp only [Bool.or_eq_true, Bool.not_eq_true', not_or, Bool.not_eq_false] at good
    exact ⟨(pure_ok.mp made).symm, good.1⟩

/-- Above the blank, and no DEL. -/
def isVisible (byte : UInt8) : Bool := 0x20 < byte && byte != 0x7f

theorem visible_plain {byte : UInt8} (visible : isVisible byte = true) :
    isControl byte = false ∧ isSpace byte = false := by
  obtain ⟨high, other⟩ := Bool.and_eq_true_iff.mp visible
  have above := UInt8.lt_iff_toNat_lt.mp (of_decide_eq_true high)
  have not_delete : byte ≠ 0x7f := bne_iff_ne.mp other
  have blank : (0x20 : UInt8).toNat = 32 := rfl
  have low : ¬byte < 0x20 := fun below => by
    have := UInt8.lt_iff_toNat_lt.mp below
    omega
  have not_blank : byte ≠ 0x20 := fun same => by
    rw [same] at above
    exact absurd above (Nat.lt_irrefl _)
  have not_break : ¬byte ≤ 0x0d := fun below => by
    have := UInt8.le_iff_toNat_le.mp below
    have last : (0x0d : UInt8).toNat = 13 := rfl
    omega
  constructor
  · simp [isControl, low, not_delete]
  · simp [isSpace, not_blank, not_break]

theorem tidy_visible (each : ∀ byte ∈ value, isVisible byte = true) : Tidy value := by
  constructor
  · exact List.any_eq_false.mpr fun byte member => by simp [(visible_plain (each byte member)).1]
  · unfold hasOuterWhitespace
    rw [Bool.or_eq_false_iff]
    constructor
    · cases first : value.head? with
      | none => rfl
      | some byte => exact (visible_plain (each byte (List.mem_of_head? first))).2
    · cases last : value.getLast? with
      | none => rfl
      | some byte => exact (visible_plain (each byte (List.mem_of_getLast? last))).2

theorem visible_between {byte low high : UInt8} (first : 0x20 < low) (last : high < 0x7f)
    (within : low ≤ byte ∧ byte ≤ high) : isVisible byte = true := by
  simp only [UInt8.lt_iff_toNat_lt, UInt8.le_iff_toNat_le] at first last within
  refine Bool.and_eq_true_iff.mpr ⟨decide_eq_true (UInt8.lt_iff_toNat_lt.mpr (by omega)), bne_iff_ne.mpr ?_⟩
  rintro rfl
  omega

theorem visible_digit {byte : UInt8} (digit : isDigit byte = true) : isVisible byte = true := by
  simp only [isDigit, Bool.and_eq_true, decide_eq_true_eq] at digit
  exact visible_between (by decide) (by decide) digit

theorem visible_lower {byte : UInt8} (lower : isLowerCase byte = true) : isVisible byte = true := by
  simp only [isLowerCase, Bool.and_eq_true, decide_eq_true_eq] at lower
  exact visible_between (by decide) (by decide) lower

theorem visible_alnum {byte : UInt8} (alnum : isAlnum byte = true) : isVisible byte = true := by
  unfold isAlnum at alnum
  rcases Bool.or_eq_true_iff.mp alnum with letter | digit
  · rcases Bool.or_eq_true_iff.mp letter with upper | lower
    · simp only [isUpperCase, Bool.and_eq_true, decide_eq_true_eq] at upper
      exact visible_between (by decide) (by decide) upper
    · exact visible_lower lower
  · exact visible_digit digit

theorem decimal_tidy (n : Nat) : Tidy (decimal n) :=
  tidy_visible fun byte member => visible_digit (decimal_digits n byte member)

theorem ssh_target_tidy (good : isValidSshCloneTarget value = true) : Tidy value ∧ value.length ≤ 2000 := by
  unfold isValidSshCloneTarget at good
  dsimp only at good
  split at good
  · next user host pieces =>
    simp only [Bool.and_eq_true, decide_eq_true_eq] at good
    obtain ⟨⟨⟨⟨short, -⟩, -⟩, user_safe⟩, host_safe⟩ := good
    have whole : ['@'.toUInt8].intercalate (value.splitOn '@'.toUInt8) = value := List.intercalate_splitOn _
    rw [pieces] at whole
    refine ⟨?_, Nat.le_trans short (by decide)⟩
    rw [← whole]
    refine tidy_visible fun byte member => ?_
    have part : byte ∈ user ∨ byte = '@'.toUInt8 ∨ byte ∈ host := by
      simpa [List.intercalate] using member
    have safe : ∀ byte, (isAlnum byte || byte == '-'.toUInt8 || byte == '_'.toUInt8 || byte == '.'.toUInt8) = true →
        isVisible byte = true := by
      intro byte good
      simp only [Bool.or_eq_true, beq_iff_eq] at good
      rcases good with ((alnum | rfl) | rfl) | rfl
      exacts [visible_alnum alnum, by decide, by decide, by decide]
    rcases part with of_user | rfl | of_host
    · exact safe byte (List.all_eq_true.mp user_safe.2 byte of_user)
    · decide
    · exact safe byte (List.all_eq_true.mp host_safe.2 byte of_host)
  · cases good

/-- A key that may start a line. -/
structure KeyFits (key : Bytes) : Prop where
  filled : key ≠ []
  one_equals : equals ∉ key
  tidy : Tidy key
  no_comment : key.head? ≠ some hash

instance : Decidable (KeyFits key) := decidable_of_iff
  (key ≠ [] ∧ equals ∉ key ∧ Tidy key ∧ key.head? ≠ some hash)
  ⟨fun all => ⟨all.1, all.2.1, all.2.2.1, all.2.2.2⟩,
    fun fits => ⟨fits.filled, fits.one_equals, fits.tidy, fits.no_comment⟩⟩

/-- A line that is not passed over. -/
theorem line_counts (fits : KeyFits key) :
    ¬(Setting.line (key, value) = [] ∨ (Setting.line (key, value)).head? = some hash) := by
  obtain ⟨first, rest, rfl⟩ := List.exists_cons_of_ne_nil fits.filled
  rintro (none | comment)
  exacts [List.cons_ne_nil _ _ none, fits.no_comment comment]

theorem line_free {byte : UInt8} (fits : KeyFits key) (plain : hasControlCharacter value = false)
    (control : isControl byte = true) : byte ∉ Setting.line (key, value) := by
  intro member
  rcases List.mem_append.mp member with before | after
  · exact control_free fits.tidy.plain control before
  · rcases List.mem_cons.mp after with rfl | later
    · cases control
    · exact control_free plain control later

theorem line_unreturned (fits : KeyFits key) (plain : hasControlCharacter value = false) :
    (Setting.line (key, value)).getLast? ≠ some carriage := fun last =>
  line_free fits plain (by decide) (List.mem_of_getLast? last)

theorem line_length : (Setting.line (key, value)).length = key.length + value.length + 1 := by
  rw [Setting.line, List.length_append, List.length_cons, Nat.add_assoc]

theorem line_taken (fits : KeyFits key) (plain : hasControlCharacter value = false)
    (short : (Setting.line (key, value)).length ≤ kMaximumLineBytes) :
    ¬((Setting.line (key, value)).length > kMaximumLineBytes
      ∨ (Setting.line (key, value)).getLast? = some carriage) := by
  rintro (long | last)
  exacts [Nat.not_lt.mpr short long, line_unreturned fits plain last]

end CkGit.Config
