import CkGit.Workflow.Model

/-!
A dependency lock: parseCiDependencyLock of src/common/ci_dependency_lock.cpp
over the tree that parseYamlSubset gives. The digest is over the exact bytes of
the lock; the results hold for any reader of the tree and any digest, and
`projectReaders` are those of the project.
-/
namespace CkGit.Dependencies
open CkGit.Base CkGit.Ci
open CkGit.Workflow (YamlNode YamlError findEntry)

/-- What the dependency functions throw. -/
inductive DependencyError where
  | yaml (error : YamlError)
  | lock (message : String)
  | store (message : String)
  /-- A search with a bound on its levels ran out of them; the code has no such bound. -/
  | outOfLevels
  deriving DecidableEq

abbrev Checked := Except DependencyError

/-- yamlMalformed in the dialect of the lock. -/
def malformed {α : Type} (message : String) (line : Nat) : Checked α :=
  .error (.yaml (.malformed (ascii message) line))

def malformedIf (bad : Prop) [Decidable bad] (message : String) (line : Nat) : Checked Unit :=
  rejectIf bad (.yaml (.malformed (ascii message) line))

/-- What is read from a document: its tree, and the SHA-256 of its bytes. -/
structure Readers where
  parseDocument : Bytes → Checked YamlNode
  empty : ∀ node, parseDocument [] ≠ .ok node
  sha256Hex : Bytes → Bytes
  hex : ∀ content, isValidSha256Hex (sha256Hex content) = true

/-- A file that the lock was resolved from. -/
structure CiDependencyInput where
  path : Bytes
  sha256 : Bytes
  deriving DecidableEq

/-- A resolved package and the names it needs. -/
structure CiDependencyPackage where
  name : Bytes
  version : Bytes
  registry : Bytes
  sha256 : Bytes
  recipe_sha256 : Bytes
  direct : Bool
  needs : List Bytes
  deriving DecidableEq

/-- A lock that was accepted, with the digest of its bytes. -/
structure CiDependencyLock where
  sha256 : Bytes
  platform : Bytes
  architecture : Bytes
  abi : Bytes
  inputs : List CiDependencyInput
  packages : List CiDependencyPackage
  deriving DecidableEq

def kMaximumLockBytes : Nat := 256 * 1024

/-- The tree of a document within the size limit. -/
def parseYamlSubset (readers : Readers) (content : Bytes) : Checked YamlNode := do
  rejectIf (content.length > kMaximumLockBytes)
    (.yaml (.tooLarge (ascii "the dependency lock file exceeds its size limit")))
  readers.parseDocument content

def entries (node : YamlNode) : List (Bytes × YamlNode) :=
  match node with
  | .mapping entries _ => entries
  | _ => []

/-- A required field of any kind. -/
def field (node : YamlNode) (name : String) : Checked YamlNode :=
  match findEntry (entries node) name with
  | some value => .ok value
  | none => malformed ("missing required field '" ++ name ++ "'") node.line

/-- A required field that is a scalar. -/
def scalar (node : YamlNode) (name : String) : Checked Bytes := do
  match ← field node name with
  | .scalar text _ => return text
  | other => malformed "expected the field to have the expected type" other.line

/-- A required field that is a list, with its line. -/
def sequence (node : YamlNode) (name : String) : Checked (List YamlNode × Nat) := do
  match ← field node name with
  | .sequence items line => return (items, line)
  | other => malformed "expected the field to have the expected type" other.line

def rejectUnknownKeys (node : YamlNode) (allowed : List String) : Checked Unit :=
  match (entries node).find? fun entry => !(allowed.map ascii).contains entry.1 with
  | some entry => .error (.yaml (.malformed (ascii "unknown key '" ++ entry.1 ++ ascii "'") node.line))
  | none => .ok ()

def requireMapping (node : YamlNode) (what : String) : Checked Unit :=
  match node with
  | .mapping _ _ => .ok ()
  | _ => malformed ("expected " ++ what) node.line

def requireScalar (node : YamlNode) (what : String) : Checked Bytes :=
  match node with
  | .scalar text _ => .ok text
  | _ => malformed ("expected " ++ what) node.line

/-- A letter, a digit or one of a few signs. -/
def isTokenCharacter (byte : UInt8) : Bool :=
  isAlnum byte || byte == '.'.toUInt8 || byte == '_'.toUInt8 || byte == '-'.toUInt8 || byte == '+'.toUInt8

/-- A filled token of bounded length. -/
def safeToken (value : Bytes) (limit : Nat) : Bool :=
  !value.isEmpty && value.length ≤ limit && value.all isTokenCharacter

def digest (value : Bytes) (line : Nat) : Checked Unit :=
  malformedIf (¬ isValidSha256Hex value) "SHA-256 must be 64 lowercase hexadecimal digits" line

/-- One more input; a path may stand once. -/
def parseInput (inputs : List CiDependencyInput) (node : YamlNode) : Checked (List CiDependencyInput) := do
  requireMapping node "an input to be a mapping"
  rejectUnknownKeys node ["path", "sha256"]
  let path ← scalar node "path"
  let sha256 ← scalar node "sha256"
  malformedIf (¬ (path.all (fun c => 0x20 ≤ c && c ≤ 0x7e) ∧ isSafeRelativePath path)
      ∨ path.getLast? = some '/'.toUInt8 ∨ path ∈ inputs.map (·.path))
    "invalid or duplicate input path" node.line
  digest sha256 node.line
  let input : CiDependencyInput := { path, sha256 }
  return inputs ++ [input]

/-- One more need of a package; a name may stand once. -/
def parseNeed (needs : List Bytes) (node : YamlNode) : Checked (List Bytes) := do
  let name ← requireScalar node "a dependency name to be a scalar"
  malformedIf (¬ safeToken name 128 ∨ name ∈ needs) "invalid or duplicate dependency name" node.line
  return needs ++ [name]

/-- One more package; a name may stand once. -/
def parsePackage (packages : List CiDependencyPackage) (node : YamlNode) : Checked (List CiDependencyPackage) := do
  requireMapping node "a package to be a mapping"
  rejectUnknownKeys node ["name", "version", "registry", "sha256", "recipe_sha256", "direct", "needs"]
  let name ← scalar node "name"
  let version ← scalar node "version"
  let registry ← scalar node "registry"
  let sha256 ← scalar node "sha256"
  let recipe_sha256 ← scalar node "recipe_sha256"
  malformedIf (¬ (safeToken name 128 ∧ safeToken version 128 ∧ isValidCiLabel registry)
      ∨ name ∈ packages.map (·.name)) "invalid or duplicate package identity" node.line
  digest sha256 node.line
  digest recipe_sha256 node.line
  let direct ← scalar node "direct"
  malformedIf (direct ≠ ascii "true" ∧ direct ≠ ascii "false") "direct must be true or false" node.line
  let (items, line) ← sequence node "needs"
  malformedIf (items.length > 256) "too many package dependencies" line
  let needs ← items.foldlM parseNeed []
  return packages ++ [{ name, version, registry, sha256, recipe_sha256, direct := direct == ascii "true", needs }]

/-- Visits a package and what it needs, so many levels deep at most. The states are unseen, on the
way and done. -/
def visit (packages : List CiDependencyPackage) (levels index : Nat) (states : List Nat) : Checked (List Nat) :=
  match levels with
  | 0 => .error .outOfLevels
  | levels + 1 =>
    if states[index]? = some 1 then .error (.lock "dependency lock: dependency cycle")
    else if states[index]? = some 2 then .ok states
    else do
      let needs := (packages[index]?.map (·.needs)).getD []
      let states ← needs.foldlM (fun states name =>
        match packages.findIdx? (·.name = name) with
        | some next => visit packages levels next states
        | none => .error (.lock "dependency lock: unresolved dependency")) (states.set index 1)
      return states.set index 2

/-- The search from the direct packages, and that it has reached every package. -/
def rejectUnreachable (packages : List CiDependencyPackage) : Checked Unit := do
  let states ← packages.zipIdx.foldlM (fun states (package, index) =>
    if package.direct then visit packages (packages.length + 1) index states else .ok states)
    (List.replicate packages.length 0)
  rejectIf (states.any (· != 2)) (.lock "dependency lock: packages must be reachable from a direct dependency")

/-- The targets that a lock may be for. -/
def isTarget (platform architecture abi : Bytes) : Bool :=
  [ascii "windows", ascii "macos", ascii "linux"].contains platform
    && [ascii "x64", ascii "arm64"].contains architecture && safeToken abi 128

/-- parseCiDependencyLock of src/common/ci_dependency_lock.cpp. -/
def parseCiDependencyLock (readers : Readers) (content : Bytes) : Checked CiDependencyLock := do
  let root ← parseYamlSubset readers content
  rejectUnknownKeys root ["version", "platform", "architecture", "abi", "inputs", "packages"]
  let version ← scalar root "version"
  malformedIf (version ≠ ascii "1") "version must be 1" root.line
  let platform ← scalar root "platform"
  let architecture ← scalar root "architecture"
  let abi ← scalar root "abi"
  malformedIf (¬ isTarget platform architecture abi) "invalid target platform, architecture or ABI" root.line
  let (nodes, line) ← sequence root "inputs"
  malformedIf (nodes = [] ∨ nodes.length > 128) "inputs must contain 1 to 128 entries" line
  let inputs ← nodes.foldlM parseInput []
  let (nodes, line) ← sequence root "packages"
  malformedIf (nodes = [] ∨ nodes.length > 1024) "packages must contain 1 to 1024 entries" line
  let packages ← nodes.foldlM parsePackage []
  rejectUnreachable packages
  return { sha256 := readers.sha256Hex content, platform, architecture, abi, inputs, packages }

section
variable {readers : Readers} {content : Bytes} {lock : CiDependencyLock}

/-- A package that is taken is appended, under a safe name. -/
theorem parsePackage_ok {packages after : List CiDependencyPackage} {node : YamlNode}
    (h : parsePackage packages node = .ok after) :
    ∃ package, after = packages ++ [package] ∧ safeToken package.name 128 = true := by
  unfold parsePackage at h
  simp only [bind_ok, malformedIf, rejectIf_ok, pure_ok] at h
  obtain ⟨_, _, _, _, name, _, _, _, _, _, _, _, _, _, _, identity, _, _, _, _, _, _, _, _, _, _, _, _, _, _, rfl⟩ := h
  exact ⟨_, rfl, (not_not.mp (not_or.mp identity).1).1⟩

theorem parsePackages_ok {packages after : List CiDependencyPackage} {nodes : List YamlNode}
    (h : nodes.foldlM parsePackage packages = .ok after) :
    after.length = packages.length + nodes.length
      ∧ ((∀ package ∈ packages, safeToken package.name 128 = true) →
        ∀ package ∈ after, safeToken package.name 128 = true) := by
  induction nodes generalizing packages with
  | nil =>
    rw [List.foldlM_nil, pure_ok] at h
    subst h
    exact ⟨rfl, id⟩
  | cons node rest ih =>
    rw [List.foldlM_cons, bind_ok] at h
    obtain ⟨next, first, later⟩ := h
    obtain ⟨package, rfl, safe⟩ := parsePackage_ok first
    obtain ⟨count, all⟩ := ih later
    refine ⟨?_, fun known => all fun other member => ?_⟩
    · rw [count, List.length_append, List.length_singleton, List.length_cons]
      omega
    · rcases List.mem_append.mp member with before | last
      · exact known other before
      · rw [List.mem_singleton.mp last]
        exact safe

/-- An accepted lock: its digest is of its bytes, and it has packages with safe names. -/
theorem parseCiDependencyLock_ok (h : parseCiDependencyLock readers content = .ok lock) :
    content ≠ [] ∧ content.length ≤ kMaximumLockBytes ∧ lock.sha256 = readers.sha256Hex content ∧ lock.packages ≠ []
      ∧ ∀ package ∈ lock.packages, safeToken package.name 128 = true := by
  unfold parseCiDependencyLock parseYamlSubset at h
  simp only [bind_ok, malformedIf, rejectIf_ok, pure_ok] at h
  obtain ⟨root, ⟨_, fits, document⟩, _, _, version, _, _, _, platform, _, architecture, _, abi, _, _, _, ⟨_, _⟩, _, _, _,
    _, _, ⟨nodes, line⟩, _, _, count, packages, parsed, _, _, rfl⟩ := h
  obtain ⟨length, safe⟩ := parsePackages_ok parsed
  refine ⟨fun nothing => readers.empty root (nothing ▸ document), Nat.not_lt.mp fits, rfl, ?_, safe fun _ absent => by cases absent⟩
  intro none_left
  have empty : packages = [] := none_left
  have filled : 0 < nodes.length := List.length_pos_iff.mpr (not_or.mp count).1
  rw [empty] at length
  simp only [List.length_nil, Nat.zero_add] at length
  omega

end

end CkGit.Dependencies
