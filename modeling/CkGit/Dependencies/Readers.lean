import CkGit.Dependencies.Lock
import CkGit.Digest.Standard
import CkGit.Workflow.Parse

/-!
What the project reads a dependency lock with: parseYamlSubset under the dialect
of src/common/ci_dependency_lock.cpp, and sha256Hex.
-/
namespace CkGit.Dependencies
open CkGit.Base CkGit.Ci
open CkGit.Workflow (YamlNode nodeOf)

def dialect : Yaml.YamlDialect where
  bounds := ⟨kMaximumLockBytes, 4096, 8192, 128, 1024, 1024, 256, 1024, 16, 10⟩
  prefix_text := ascii "dependency lock"
  document := ascii "the dependency lock"

mutual

/-- Trees can be compared. -/
def decideNode : ∀ node other : YamlNode, Decidable (node = other)
  | .scalar text line, .scalar text' line' => decidable_of_iff (text = text' ∧ line = line') (by simp)
  | .sequence items line, .sequence items' line' =>
    letI := decideNodes items items'
    decidable_of_iff (items = items' ∧ line = line') (by simp)
  | .mapping entries line, .mapping entries' line' =>
    letI := decideEntries entries entries'
    decidable_of_iff (entries = entries' ∧ line = line') (by simp)
  | .scalar .., .sequence .. | .scalar .., .mapping .. | .sequence .., .scalar .. | .sequence .., .mapping ..
  | .mapping .., .scalar .. | .mapping .., .sequence .. => isFalse (by simp)

def decideNodes : ∀ nodes others : List YamlNode, Decidable (nodes = others)
  | [], [] => isTrue rfl
  | [], _ :: _ | _ :: _, [] => isFalse (by simp)
  | node :: nodes, other :: others =>
    letI := decideNode node other
    letI := decideNodes nodes others
    decidable_of_iff (node = other ∧ nodes = others) (by simp)

def decideEntries : ∀ entries others : List (Bytes × YamlNode), Decidable (entries = others)
  | [], [] => isTrue rfl
  | [], _ :: _ | _ :: _, [] => isFalse (by simp)
  | (key, node) :: entries, (key', other) :: others =>
    letI := decideNode node other
    letI := decideEntries entries others
    decidable_of_iff ((key = key' ∧ node = other) ∧ entries = others) (by simp)

end

instance : DecidableEq YamlNode := decideNode

/-- What is raised for a document that cannot be read. -/
def errorOf : Yaml.YamlError → DependencyError
  | .malformed message line => .yaml (.malformed message line)
  | .tooLarge message => .yaml (.tooLarge message)
  | .notUtf8 => .lock "dependency lock: the file is not valid UTF-8"
  | .outOfRange | .diverged => .outOfLevels

theorem hexEncode_lowercase (bytes : Bytes) : isLowercaseHex (hexEncode bytes) = true :=
  hexEncode_all (by decide +kernel) bytes

theorem sha256Hex_valid (content : Bytes) : isValidSha256Hex (Digest.sha256Hex content) = true := by
  have words : ∀ words : List Digest.Word, (words.flatMap Digest.hexWord).length = 8 * words.length
      ∧ isLowercaseHex (words.flatMap Digest.hexWord) = true := by
    intro words
    induction words with
    | nil => exact ⟨rfl, rfl⟩
    | cons word rest ih =>
      have lower := hexEncode_lowercase (Sha256.bigEndian 4 word.toNat)
      unfold isLowercaseHex at *
      rw [List.flatMap_cons, List.length_append, ih.1, List.all_append, ih.2, Digest.hexWord_spec, lower,
        hexEncode_length, Sha256.bigEndian_length]
      exact ⟨by rw [List.length_cons]; omega, rfl⟩
  rw [isValidSha256Hex, Digest.sha256Hex, Digest.Sha256.finish, (words _).1, (words _).2, Vector.length_toList]
  rfl

/-- The readers of the project. -/
def projectReaders : Readers where
  parseDocument content :=
    match Yaml.parseYamlSubset content dialect with
    | .ok node => .ok (nodeOf node)
    | .error error => .error (errorOf error)
  empty node parsed := by
    have refused : Yaml.parseYamlSubset [] dialect
        = .error (.malformed (ascii "the dependency lock file is empty") 1) := rfl
    rw [refused] at parsed
    cases parsed
  sha256Hex := Digest.sha256Hex
  hex := sha256Hex_valid

end CkGit.Dependencies
