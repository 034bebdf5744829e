import Mathlib.Data.List.Basic

/-!
How the Microsoft C runtime cuts a command line into arguments. The program
name knows quotes only; in the other arguments backslashes are halved before a
quote, an odd one escapes it, and a doubled quote inside quotes is one quote.
-/
namespace CkGit.Base.Argv

/-- A code unit of a wide text. -/
abbrev Wide := List UInt16

def space : UInt16 := 32
def tab : UInt16 := 9
def quote : UInt16 := 34
def backslash : UInt16 := 92

def isBlank (c : UInt16) : Bool := c = space || c = tab

/-- The program name, and what is behind the blank that ends it. -/
def programName (inQuotes : Bool) (text : Wide) : Wide × Wide :=
  match text with
  | [] => ([], [])
  | c :: rest =>
    if c = quote then programName (!inQuotes) rest
    else if !inQuotes && isBlank c then ([], rest)
    else
      let (name, remaining) := programName inQuotes rest
      (c :: name, remaining)

/-- Text that is kept before what is read next. -/
def keep (kept : Wide) (read : Wide × Wide) : Wide × Wide := (kept ++ read.1, read.2)

/-- An argument, and the text from the blank that ends it. `slashes` backslashes
were read just before; a second quote of a pair is `paired` and copied. -/
def readArgument (inQuotes : Bool) (slashes : Nat) (paired : Bool) (text : Wide) : Wide × Wide :=
  match text with
  | [] => (List.replicate slashes backslash, [])
  | c :: rest =>
    if paired then keep [c] (readArgument inQuotes 0 false rest)
    else if c = backslash then readArgument inQuotes (slashes + 1) false rest
    else if c = quote then
      let halved := List.replicate (slashes / 2) backslash
      if slashes % 2 = 0 then
        if inQuotes && rest.head? = some quote then keep halved (readArgument inQuotes 0 true rest)
        else keep halved (readArgument (!inQuotes) 0 false rest)
      else keep (halved ++ [quote]) (readArgument inQuotes 0 false rest)
    else if !inQuotes && isBlank c then (List.replicate slashes backslash, c :: rest)
    else keep (List.replicate slashes backslash ++ [c]) (readArgument inQuotes 0 false rest)

theorem readArgument_length (inQuotes : Bool) (slashes : Nat) (paired : Bool) (text : Wide) :
    (readArgument inQuotes slashes paired text).2.length ≤ text.length := by
  fun_induction readArgument inQuotes slashes paired text <;> simp_all [keep] <;> omega

/-- An argument takes at least the character it starts with. -/
theorem readArgument_consumes {c : UInt16} (visible : isBlank c = false) (rest : Wide) :
    (readArgument false 0 false (c :: rest)).2.length ≤ rest.length := by
  have shorter (inQuotes : Bool) (slashes : Nat) (paired : Bool) := readArgument_length inQuotes slashes paired rest
  rw [readArgument]
  simp only [visible, Bool.false_and, Bool.and_false, Bool.false_eq_true, if_false, keep]
  split
  · exact shorter _ _ _
  split
  · exact shorter _ _ _
  · exact shorter _ _ _

/-- The arguments behind the program name. -/
def splitArguments (text : Wide) : List Wide :=
  match _shape : text.dropWhile isBlank with
  | [] => []
  | c :: rest => (readArgument false 0 false (c :: rest)).1 :: splitArguments (readArgument false 0 false (c :: rest)).2
termination_by text.length
decreasing_by
  have visible : isBlank c = false := by
    have stops := List.head_dropWhile_not isBlank (l := text) (by rw [_shape]; exact List.cons_ne_nil c rest)
    simpa [_shape] using stops
  have consumed := readArgument_consumes visible rest
  have dropped := (List.dropWhile_suffix isBlank (l := text)).length_le
  rw [_shape, List.length_cons] at dropped
  omega

/-- Blanks before the arguments do not matter. -/
theorem splitArguments_congr {text text' : Wide} (same : text.dropWhile isBlank = text'.dropWhile isBlank) :
    splitArguments text = splitArguments text' := by
  rw [splitArguments.eq_def, splitArguments.eq_def text']
  split
  · rename_i empty
    split
    · rfl
    · rename_i filled
      rw [← same, empty] at filled
      cases filled
  · rename_i c rest filled
    split
    · rename_i empty
      rw [← same, filled] at empty
      cases empty
    · rename_i c' rest' filled'
      rw [← same, filled] at filled'
      obtain ⟨rfl, rfl⟩ := List.cons.inj filled'
      rfl

/-- The argument vector of a command line, which ends at the first NUL. -/
def arguments (text : Wide) : List Wide :=
  let (name, rest) := programName false (text.takeWhile (· ≠ 0))
  name :: splitArguments rest

end CkGit.Base.Argv
