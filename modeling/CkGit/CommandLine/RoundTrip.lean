import CkGit.Base.Argv
import CkGit.Base.Checks
import Mathlib.Data.List.TakeWhile

/-!
windowsCommandLine (src/common/windows_command_line.cpp): one text for an
argument vector, every argument in quotes. A command line written for an argument
vector is cut into the same vector.
-/
namespace CkGit.CommandLine
open CkGit.Base CkGit.Base.Argv

/-- One character of an argument, behind the backslashes not yet written. -/
def appendChar (written : Wide × Nat) (c : UInt16) : Wide × Nat :=
  let (result, slashes) := written
  if c = backslash then (result, slashes + 1)
  else (result ++ List.replicate (if c = quote then slashes * 2 + 1 else slashes) backslash ++ [c], 0)

def appendArgument (result argument : Wide) : Except String Wide := do
  rejectIf (0 ∈ argument) "NUL in command argument"
  let result := if result ≠ [] then result ++ [Argv.space] else result
  let (result, slashes) := argument.foldl appendChar (result ++ [quote], 0)
  return result ++ List.replicate (slashes * 2) backslash ++ [quote]

def windowsCommandLine (arguments : List Wide) : Except String Wide := do
  rejectIf (arguments = [] ∨ arguments.head? = some []) "empty command"
  let result ← arguments.foldlM appendArgument []
  rejectIf (result.length ≥ 32767) "Windows command line exceeds 32766 characters"
  return result

/-- The inside of an argument's quotes, behind backslashes not yet written. -/
def escaped (slashes : Nat) (argument : Wide) : Wide :=
  match argument with
  | [] => List.replicate (slashes * 2) backslash
  | c :: rest =>
    if c = backslash then escaped (slashes + 1) rest
    else List.replicate (if c = quote then slashes * 2 + 1 else slashes) backslash ++ c :: escaped 0 rest

def quoted (argument : Wide) : Wide := quote :: escaped 0 argument ++ [quote]

theorem foldl_appendChar (result : Wide) (slashes : Nat) (argument : Wide) :
    (argument.foldl appendChar (result, slashes)).1
        ++ List.replicate ((argument.foldl appendChar (result, slashes)).2 * 2) backslash
      = result ++ escaped slashes argument := by
  induction argument generalizing result slashes with
  | nil => rfl
  | cons c rest ih =>
    rw [List.foldl_cons, escaped]
    by_cases slash : c = backslash
    · simp only [appendChar, if_pos slash]
      exact ih result (slashes + 1)
    · simp only [appendChar, if_neg slash]
      rw [ih]
      simp

theorem appendArgument_ok {result argument text : Wide} :
    appendArgument result argument = .ok text ↔
      0 ∉ argument ∧ text = (if result ≠ [] then result ++ [Argv.space] else result) ++ quoted argument := by
  have shape := foldl_appendChar ((if result ≠ [] then result ++ [Argv.space] else result) ++ [quote]) 0 argument
  simp only [appendArgument, bind_ok, rejectIf_ok, pure_ok, exists_and_left, exists_const, quoted]
  rw [shape]
  simp [eq_comm]

/-- The other arguments, each behind a blank. -/
def others (arguments : List Wide) : Wide := arguments.flatMap fun argument => Argv.space :: quoted argument

theorem appended_others {result text : Wide} (started : result ≠ []) {arguments : List Wide}
    (h : arguments.foldlM appendArgument result = .ok text) :
    (∀ argument ∈ arguments, 0 ∉ argument) ∧ text = result ++ others arguments := by
  induction arguments generalizing result with
  | nil =>
    simp only [List.foldlM_nil, pure_ok] at h
    exact ⟨by simp, by simp [others, h]⟩
  | cons argument rest ih =>
    rw [List.foldlM_cons, bind_ok] at h
    obtain ⟨next, first, later⟩ := h
    obtain ⟨plain, rfl⟩ := appendArgument_ok.mp first
    obtain ⟨plains, whole⟩ := ih (by simp [quoted]) later
    refine ⟨List.forall_mem_cons.mpr ⟨plain, plains⟩, ?_⟩
    rw [whole, if_pos started, others, others, List.flatMap_cons]
    simp

/-- What a command line that is written looks like. -/
theorem windowsCommandLine_ok {arguments : List Wide} {text : Wide} (h : windowsCommandLine arguments = .ok text) :
    ∃ program rest, arguments = program :: rest ∧ (∀ argument ∈ arguments, 0 ∉ argument) ∧
      text = quoted program ++ others rest := by
  simp only [windowsCommandLine, bind_ok, rejectIf_ok, pure_ok, exists_and_left, exists_const] at h
  obtain ⟨filled, result, done, -, rfl⟩ := h
  cases arguments with
  | nil => exact absurd (.inl rfl) filled
  | cons program rest =>
    rw [List.foldlM_cons, bind_ok] at done
    obtain ⟨next, first, later⟩ := done
    obtain ⟨plain, rfl⟩ := appendArgument_ok.mp first
    obtain ⟨plains, whole⟩ := appended_others (by simp [quoted]) later
    exact ⟨program, rest, rfl, List.forall_mem_cons.mpr ⟨plain, plains⟩, by simpa using whole⟩

/-- Backslashes are counted until something else is read. -/
theorem read_slashes (inQuotes : Bool) (slashes count : Nat) (text : Wide) :
    readArgument inQuotes slashes false (List.replicate count backslash ++ text)
      = readArgument inQuotes (slashes + count) false text := by
  induction count generalizing slashes with
  | zero => rfl
  | succ count ih =>
    rw [List.replicate_succ, List.cons_append, readArgument]
    simp [ih, Nat.add_assoc, Nat.add_comm 1 count]

/-- A text that an argument ends before: the end, or a blank. -/
def Ends (tail : Wide) : Prop := tail = [] ∨ ∃ rest, tail = Argv.space :: rest

theorem read_end {tail : Wide} (ends : Ends tail) : readArgument false 0 false tail = ([], tail) := by
  rcases ends with rfl | ⟨rest, rfl⟩ <;> rfl

/-- The quote at the end of an argument, behind a doubled run of backslashes. -/
theorem read_close {tail : Wide} (ends : Ends tail) (slashes : Nat) :
    readArgument true (slashes * 2) false (quote :: tail) = (List.replicate slashes backslash, tail) := by
  have single : tail.head? ≠ some quote := by
    rcases ends with rfl | ⟨rest, rfl⟩ <;> simp [Argv.space, quote]
  rw [readArgument, if_neg (by decide), if_neg (by decide), if_pos rfl]
  simp only [Nat.mul_mod_left, if_true, Nat.mul_div_cancel _ (show 0 < 2 by decide)]
  rw [if_neg (by simpa using single)]
  simp [keep, read_end ends]

theorem read_escaped {tail : Wide} (ends : Ends tail) (slashes : Nat) (argument : Wide) :
    readArgument true 0 false (escaped slashes argument ++ quote :: tail)
      = (List.replicate slashes backslash ++ argument, tail) := by
  induction argument generalizing slashes with
  | nil =>
    rw [escaped, read_slashes, Nat.zero_add, read_close ends, List.append_nil]
  | cons c rest ih =>
    rw [escaped]
    by_cases slash : c = backslash
    · rw [if_pos slash, ih, slash, List.replicate_succ', List.append_assoc]
      rfl
    · rw [if_neg slash, List.append_assoc, read_slashes, Nat.zero_add, List.cons_append, readArgument,
        if_neg (by decide), if_neg slash]
      have inner := ih 0
      rw [List.replicate_zero, List.nil_append] at inner
      by_cases mark : c = quote
      · -- an odd run of backslashes makes the quote one of the argument
        rw [if_pos mark, if_pos mark, if_neg (by omega), show (slashes * 2 + 1) / 2 = slashes by omega, inner, mark]
        simp [keep]
      · rw [if_neg mark, if_neg mark, if_neg (by simp), inner]
        simp [keep]

theorem read_quoted {tail : Wide} (ends : Ends tail) (argument : Wide) :
    readArgument false 0 false (quoted argument ++ tail) = (argument, tail) := by
  have inside := read_escaped ends 0 argument
  rw [quoted, List.append_assoc, List.cons_append, readArgument, if_neg (by decide), if_neg (by decide), if_pos rfl]
  simp only [Nat.zero_mod, if_true, Nat.zero_div, Bool.false_and, Bool.not_false]
  rw [if_neg (by decide), List.singleton_append, inside]
  rfl

theorem others_ends (arguments : List Wide) : Ends (others arguments) := by
  cases arguments with
  | nil => exact .inl rfl
  | cons argument rest => exact .inr ⟨quoted argument ++ others rest, rfl⟩

theorem split_others (arguments : List Wide) : splitArguments (others arguments) = arguments := by
  induction arguments with
  | nil =>
    rw [splitArguments.eq_def]
    rfl
  | cons argument rest ih =>
    have shape : (others (argument :: rest)).dropWhile isBlank
        = quote :: (escaped 0 argument ++ [quote] ++ others rest) := by
      simp [others, quoted, isBlank, Argv.space, quote, Argv.tab]
    have read := read_quoted (others_ends rest) argument
    rw [splitArguments.eq_def]
    split
    · rename_i empty
      rw [shape] at empty
      cases empty
    · rename_i c remaining found
      rw [shape] at found
      have whole : c :: remaining = quoted argument ++ others rest := by
        rw [← found, quoted]
        rfl
      rw [whole, read, ih]

theorem programName_quoted {program : Wide} (plain : quote ∉ program) (tail : Wide) :
    programName true (program ++ quote :: tail) = ((program ++ (programName false tail).1), (programName false tail).2) := by
  induction program with
  | nil => simp [programName]
  | cons c rest ih =>
    have here : c ≠ quote := fun same => plain (same ▸ List.mem_cons_self)
    have there := ih fun inside => plain (List.mem_cons_of_mem _ inside)
    simp [programName, here, there]

/-- A name without quotes that does not end in a backslash is written as it is. -/
theorem escaped_program {program : Wide} (plain : quote ∉ program) (slashes : Nat)
    (ends : program.getLast? ≠ some backslash) (none : program = [] → slashes = 0) :
    escaped slashes program = List.replicate slashes backslash ++ program := by
  induction program generalizing slashes with
  | nil => simp [escaped, none rfl]
  | cons c rest ih =>
    have here : c ≠ quote := fun same => plain (same ▸ List.mem_cons_self)
    have there : quote ∉ rest := fun inside => plain (List.mem_cons_of_mem _ inside)
    have last (h : rest ≠ []) : rest.getLast? ≠ some backslash := by
      rwa [List.getLast?_cons_of_ne_nil h] at ends
    rw [escaped]
    by_cases slash : c = backslash
    · have more : rest ≠ [] := by
        rintro rfl
        exact ends (by simp [slash])
      rw [if_pos slash, ih there (slashes + 1) (last more) (fun empty => absurd empty more), slash,
        List.replicate_succ', List.append_assoc]
      rfl
    · rw [if_neg slash, if_neg here]
      by_cases more : rest = []
      · subst more
        rfl
      · rw [ih there 0 (last more) (fun _ => rfl)]
        rfl

theorem mem_escaped {slashes : Nat} {argument : Wide} {c : UInt16} (inside : c ∈ escaped slashes argument) :
    c = backslash ∨ c ∈ argument := by
  induction argument generalizing slashes with
  | nil => exact .inl (List.eq_of_mem_replicate inside)
  | cons first rest ih =>
    rw [escaped] at inside
    split at inside
    · exact (ih inside).imp_right (List.mem_cons_of_mem _)
    · rcases List.mem_append.mp inside with run | later
      · exact .inl (List.eq_of_mem_replicate run)
      · rcases List.mem_cons.mp later with rfl | later
        · exact .inr List.mem_cons_self
        · exact (ih later).imp_right (List.mem_cons_of_mem _)

theorem quoted_plain {argument : Wide} (plain : 0 ∉ argument) : 0 ∉ quoted argument := by
  intro inside
  simp only [quoted, List.mem_append, List.mem_cons, List.not_mem_nil, or_false] at inside
  rcases inside with (zero | inner) | zero
  · exact absurd zero (by decide)
  · rcases mem_escaped inner with zero | own
    · exact absurd zero (by decide)
    · exact plain own
  · exact absurd zero (by decide)

theorem others_plain {arguments : List Wide} (plain : ∀ argument ∈ arguments, 0 ∉ argument) :
    0 ∉ others arguments := by
  intro inside
  obtain ⟨argument, member, own⟩ := List.mem_flatMap.mp inside
  rcases List.mem_cons.mp own with zero | own
  · exact absurd zero (by decide)
  · exact quoted_plain (plain argument member) own

/-- The program name ends at the blank before the first other argument. -/
theorem programName_others (arguments : List Wide) :
    (programName false (others arguments)).1 = [] ∧
    splitArguments (programName false (others arguments)).2 = arguments := by
  cases arguments with
  | nil => exact ⟨rfl, split_others []⟩
  | cons argument rest =>
    have cut : programName false (others (argument :: rest)) = ([], quoted argument ++ others rest) := rfl
    rw [cut]
    refine ⟨rfl, (splitArguments_congr ?_).trans (split_others (argument :: rest))⟩
    rfl

/-- A command line is cut by the C runtime into the vector it was written for. -/
theorem windowsCommandLine_arguments {arguments : List Wide} {text : Wide} (h : windowsCommandLine arguments = .ok text)
    (plain : ∀ program ∈ arguments.head?, quote ∉ program ∧ program.getLast? ≠ some backslash) :
    Argv.arguments text = arguments := by
  obtain ⟨program, rest, rfl, noNul, rfl⟩ := windowsCommandLine_ok h
  obtain ⟨noQuote, ends⟩ := plain program rfl
  have whole : (quoted program ++ others rest).takeWhile (fun c => decide (c ≠ 0)) = quoted program ++ others rest := by
    refine List.takeWhile_eq_self_iff.mpr fun c inside => ?_
    have not_nul : c ≠ 0 := by
      rintro rfl
      rcases List.mem_append.mp inside with own | other
      · exact quoted_plain (noNul program List.mem_cons_self) own
      · exact others_plain (fun argument member => noNul argument (List.mem_cons_of_mem _ member)) other
    exact decide_eq_true not_nul
  have name : programName false (quoted program ++ others rest)
      = (program ++ (programName false (others rest)).1, (programName false (others rest)).2) := by
    rw [quoted, escaped_program noQuote 0 ends (fun _ => rfl), ← programName_quoted noQuote]
    simp [programName]
  obtain ⟨blank, split⟩ := programName_others rest
  rw [Argv.arguments, whole, name]
  simp only [blank, List.append_nil, split]

/-- `tool`, an empty argument, one that ends in backslashes and one with a quote behind one. -/
theorem windowsCommandLine_tool :
    ∃ text, windowsCommandLine [[116], [], [97, 32, 92, 92], [97, 92, 34, 98]] = .ok text ∧
      Argv.arguments text = [[116], [], [97, 32, 92, 92], [97, 92, 34, 98]] :=
  ⟨_, rfl, windowsCommandLine_arguments rfl (by decide)⟩

end CkGit.CommandLine
