import CkGit.Base.Text
import Mathlib.Data.List.Sort
import Mathlib.Data.List.Dedup

/-!
The names, identifiers and labels the CI store accepts
(src/common/validation.cpp, src/common/ci_types.cpp). A name is a byte string.
-/
namespace CkGit.Ci
open CkGit.Base

def kMaximumCiArtifactNameBytes : Nat := 64
def kMaximumCiIdBytes : Nat := 64
def kMaximumSafeRelativePathBytes : Nat := 1024
def kMaximumCiLabelBytes : Nat := 32
def kMaximumCiLabels : Nat := 16

def isLowerCase (character : UInt8) : Bool := 'a'.toUInt8 ≤ character && character ≤ 'z'.toUInt8
def isUpperCase (character : UInt8) : Bool := 'A'.toUInt8 ≤ character && character ≤ 'Z'.toUInt8
def isAlnum (character : UInt8) : Bool :=
  isUpperCase character || isLowerCase character || isDigit character

def isNameCharacter (character : UInt8) : Bool :=
  isAlnum character || character == '.'.toUInt8 || character == '_'.toUInt8
    || character == '-'.toUInt8

def isIdCharacter (character : UInt8) : Bool := isAlnum character || character == '-'.toUInt8

/-- An ASCII control byte. -/
def isControl (character : UInt8) : Bool := character < 0x20 || character == 0x7f

def isLowercaseHex (value : Bytes) : Bool :=
  value.all fun character =>
    isDigit character || ('a'.toUInt8 ≤ character && character ≤ 'f'.toUInt8)

def isValidCiArtifactName (name : Bytes) : Bool :=
  !name.isEmpty && name.length ≤ kMaximumCiArtifactNameBytes && name.all isNameCharacter

def isValidCiId (id : Bytes) : Bool :=
  !id.isEmpty && id.length ≤ kMaximumCiIdBytes && id.all isIdCharacter

def isValidClientId (client_id : Bytes) : Bool :=
  !client_id.isEmpty && client_id.length ≤ 64 && client_id.head? != some '-'.toUInt8
    && client_id.all fun c => isAlnum c || c == '-'.toUInt8 || c == '_'.toUInt8

def isValidObjectId (object_id : Bytes) : Bool :=
  (object_id.length == 40 || object_id.length == 64) && isLowercaseHex object_id

def isValidSha256Hex (digest : Bytes) : Bool := digest.length == 64 && isLowercaseHex digest

def toLower (character : UInt8) : UInt8 :=
  if isUpperCase character then character + 32 else character

def isReservedName (name : Bytes) : Bool :=
  let lower := name.map toLower
  let numbered := fun stem : Bytes => lower.length == 4 && stem.isPrefixOf lower
    && (lower.drop 3).all fun c => '1'.toUInt8 ≤ c && c ≤ '9'.toUInt8
  lower == ascii "con" || lower == ascii "prn" || lower == ascii "aux" || lower == ascii "nul"
    || numbered (ascii "com") || numbered (ascii "lpt")

/-- The empty text for a valid project name, else what is wrong with it. -/
def projectNameError (name : Bytes) : String :=
  if name.isEmpty || name.length > 64 then "must contain 1 to 64 characters"
  else if name.head? == some '.'.toUInt8 then "must not begin with a dot"
  else if hasInfix (ascii "..") name then "must not contain consecutive dots"
  else if (ascii ".git").isSuffixOf name then "must not end in .git"
  else if isReservedName name then "is a reserved device name"
  else if name.any fun c => !isNameCharacter c then
    "may contain only ASCII letters, digits, dot, underscore, and hyphen"
  else ""

def isValidProjectName (name : Bytes) : Bool := projectNameError name == ""

def isValidBranchName (branch : Bytes) : Bool :=
  if branch.isEmpty || branch.length > 255 || branch.head? == some '-'.toUInt8
      || branch.head? == some '/'.toUInt8 || branch.getLast? == some '/'.toUInt8
      || branch.getLast? == some '.'.toUInt8 || hasInfix (ascii "..") branch
      || hasInfix (ascii "@\x7b") branch || hasInfix (ascii "//") branch then false
  else if branch.any fun character => character ≤ 0x20 || character == 0x7f
      || (ascii "\\~^:?*[").contains character then false
  else (branch.splitOn '/'.toUInt8).all fun component =>
    !(component.isEmpty || component == ascii "." || (ascii ".lock").isSuffixOf component)

def withoutTrailingSlashes (path : Bytes) : Bytes :=
  match path with
  | [] => []
  | first :: rest => first :: (rest.reverse.dropWhile (· == '/'.toUInt8)).reverse

def isSafeRelativePath (path : Bytes) : Bool :=
  let path := withoutTrailingSlashes path
  !path.isEmpty && path.length ≤ kMaximumSafeRelativePathBytes && path.head? != some '/'.toUInt8
    && (path.splitOn '/'.toUInt8).all fun component =>
      !(component.isEmpty || component == ascii "." || component == ascii ".."
        || component.any fun character => isControl character || character == '\\'.toUInt8)

def isValidCiLabel (label : Bytes) : Bool :=
  let lower_or_digit := fun byte => isLowerCase byte || isDigit byte
  !label.isEmpty && label.length ≤ kMaximumCiLabelBytes && (label.take 1).all lower_or_digit
    && label.all fun byte => lower_or_digit byte || byte == '.'.toUInt8 || byte == '_'.toUInt8
      || byte == '-'.toUInt8

/-- Sorted, each label once. -/
def sortedUnique (labels : List Bytes) : List Bytes :=
  (labels.insertionSort (· ≤ ·)).dedup

instance : Std.Total (fun a b : Bytes => a ≤ b) := ⟨List.le_total⟩
instance : IsTrans Bytes (fun a b => a ≤ b) := ⟨fun _ _ _ => List.le_trans⟩

theorem mem_sortedUnique {labels : List Bytes} {label : Bytes} :
    label ∈ sortedUnique labels ↔ label ∈ labels := by
  simp [sortedUnique]

theorem sortedUnique_length (labels : List Bytes) :
    (sortedUnique labels).length ≤ labels.length := by
  have dedup := (List.dedup_sublist (labels.insertionSort (· ≤ ·))).length_le
  simpa [sortedUnique] using dedup

@[simp] theorem sortedUnique_idem (labels : List Bytes) :
    sortedUnique (sortedUnique labels) = sortedUnique labels := by
  have sorted : (sortedUnique labels).Pairwise (· ≤ ·) :=
    (List.pairwise_insertionSort (· ≤ ·) labels).sublist (List.dedup_sublist _)
  have distinct : (sortedUnique labels).Nodup := List.nodup_dedup _
  rw [sortedUnique, sorted.insertionSort_eq, distinct.dedup]

def parseCiLabelList (text : Bytes) : Option (List Bytes) :=
  if text.isEmpty then some []
  else
    let labels := text.splitOn comma
    if !labels.all isValidCiLabel then none
    else
      let labels := sortedUnique labels
      if labels.length > kMaximumCiLabels then none else some labels

def formatCiLabelList (labels : List Bytes) : Bytes := joined labels

/-- Whether a runner with these labels, and its name, may run a job that asks for `runs_on`. -/
def ciRunnerMatches (name : Bytes) (labels runs_on : List Bytes) : Bool :=
  if runs_on.isEmpty && (labels.contains (ascii "windows") || name == ascii "macos-vm"
      || labels.contains (ascii "macos-vm")) then false
  else runs_on.all fun wanted => wanted == name || labels.contains wanted

end CkGit.Ci
