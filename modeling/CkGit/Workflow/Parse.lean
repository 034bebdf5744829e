import CkGit.Workflow.Bounds
import CkGit.Yaml.Model

/-!
A workflow read from its text: parseCiWorkflow (src/common/ci_workflow.cpp) with
the dialect of include/ckgit/ci_workflow.hpp. What is interpreted of a node is
its text or its parts, not how it was written.
-/
namespace CkGit.Workflow
open CkGit.Base CkGit.Ci

def kMaximumCiWorkflowBytes : Nat := 64 * 1024
def kMaximumCiLineBytes : Nat := 4096
def kMaximumCiLines : Nat := 4096
def kMaximumCiScalarBytes : Nat := 4096

def kCiWorkflowYamlBounds : Yaml.YamlBounds where
  document_bytes := kMaximumCiWorkflowBytes
  line_bytes := kMaximumCiLineBytes
  lines := kMaximumCiLines
  key_bytes := kMaximumCiKeyBytes
  scalar_bytes := kMaximumCiScalarBytes
  block_scalar_bytes := kMaximumCiScriptBytes
  flow_sequence_items := kMaximumCiArgvItems
  block_sequence_items := max kMaximumCiJobs kMaximumCiStepsPerJob
  mapping_entries := kMaximumCiEnvEntries + 8
  nesting_depth := 16

/-- The dialect of a workflow file: its bounds and the words of its errors. -/
def kCiWorkflowYamlDialect : Yaml.YamlDialect where
  bounds := kCiWorkflowYamlBounds
  prefix_text := ascii "ci workflow"
  document := ascii "the workflow"

mutual

/-- A node without its style: interpret asks for kinds only. -/
def nodeOf : Yaml.YamlNode → YamlNode
  | .scalar text line => .scalar text line
  | .blockScalar _ _ text line _ => .scalar text line
  | .sequence _ items line _ => .sequence (itemsOf items) line
  | .mapping _ entries line _ => .mapping (entriesOf entries) line

def itemsOf : List Yaml.YamlNode → List YamlNode
  | [] => []
  | item :: rest => nodeOf item :: itemsOf rest

def entriesOf : List (Bytes × Yaml.YamlNode) → List (Bytes × YamlNode)
  | [] => []
  | (key, value) :: rest => (key, nodeOf value) :: entriesOf rest

end

/-- The error of interpret as the parser raises its own. -/
def raised : YamlError → Yaml.YamlError
  | .malformed message line => .malformed message line
  | .tooLarge message => .tooLarge message

/-- parseCiWorkflow of src/common/ci_workflow.cpp. -/
def parseCiWorkflow (content : Bytes) : Except Yaml.YamlError CiWorkflow := do
  let root ← Yaml.parseYamlSubset content kCiWorkflowYamlDialect
  (interpret (nodeOf root)).mapError raised

/-- What is parsed fits the size limit and is what interpret accepts. -/
theorem parseCiWorkflow_ok {content : Bytes} {workflow : CiWorkflow} (h : parseCiWorkflow content = .ok workflow) :
    content.length ≤ kMaximumCiWorkflowBytes ∧ ∃ root, interpret root = .ok workflow := by
  simp only [parseCiWorkflow, bind_ok] at h
  obtain ⟨root, parsed, h⟩ := h
  constructor
  · unfold Yaml.parseYamlSubset at parsed
    split at parsed
    · cases parsed
    · rename_i fits
      exact Nat.not_lt.mp fits
  · refine ⟨nodeOf root, ?_⟩
    cases interpreted : interpret (nodeOf root) with
    | error error =>
      rw [interpreted] at h
      cases h
    | ok accepted =>
      rw [interpreted] at h
      cases h
      rfl

/-- Each sister is a valid project, listed once. -/
theorem interpretSisters_once {items : List YamlNode} {line : Nat} {seen : List Bytes} {sisters : List CiSister}
    (read : interpretSisters items line seen = .ok sisters) :
    (∀ sister ∈ sisters, isValidProjectName sister.name = true) ∧ (sisters.map CiSister.name).Nodup
      ∧ ∀ sister ∈ sisters, sister.name ∉ seen := by
  induction items generalizing seen sisters with
  | nil =>
    cases read
    simp
  | cons item rest ih =>
    simp only [interpretSisters, interpretSister, bind_ok, pure_ok, malformedAtIf, rejectIf_ok] at read
    obtain ⟨_, ⟨sister, _, _, valid, _, unseen, rfl⟩, others, later, rfl⟩ := read
    obtain ⟨names, distinct, apart⟩ := ih later
    have first : sister.name ∉ others.map CiSister.name := by
      intro again
      obtain ⟨other, member, same⟩ := List.mem_map.mp again
      exact apart other member (by rw [same]; exact List.mem_cons_self)
    refine ⟨List.forall_mem_cons.mpr ⟨by simpa using valid, names⟩,
      List.nodup_cons.mpr ⟨first, distinct⟩, List.forall_mem_cons.mpr ⟨by simpa using unseen, ?_⟩⟩
    exact fun other member earlier => apart other member (List.mem_cons_of_mem _ earlier)

/-- Sisters have valid names, each once. -/
theorem interpret_sisters {root : YamlNode} {workflow : CiWorkflow} (h : interpret root = .ok workflow) :
    (∀ sister ∈ workflow.sisters, isValidProjectName sister.name = true)
      ∧ (workflow.sisters.map CiSister.name).Nodup := by
  rcases (interpret_ok h).sisters with none | ⟨items, line, read⟩
  · simp [none]
  · obtain ⟨names, distinct, -⟩ := interpretSisters_once read
    exact ⟨names, distinct⟩

end CkGit.Workflow
