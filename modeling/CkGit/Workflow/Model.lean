import CkGit.Base.Checks
import CkGit.Ci.Records

/-!
# The workflow definition

The tree a YAML document parses to (src/common/yaml_subset.cpp) and its
interpretation as a CI workflow (src/common/ci_workflow.cpp, `interpret`).
parseCiWorkflow applies `interpret` to the parsed tree of `.ckgit/ci.yml`; what
is proved for every tree holds for every document.
-/
namespace CkGit.Workflow
open CkGit.Base CkGit.Ci

/-- A node and the physical line it started on. -/
inductive YamlNode where
  | scalar (text : Bytes) (line : Nat)
  | sequence (items : List YamlNode) (line : Nat)
  | mapping (entries : List (Bytes × YamlNode)) (line : Nat)

def YamlNode.line : YamlNode → Nat
  | .scalar _ line | .sequence _ line | .mapping _ line => line

/-- What a rejected workflow reports: yamlMalformed and yamlTooLarge. -/
inductive YamlError where
  | malformed (message : Bytes) (line : Nat)
  | tooLarge (message : Bytes)
  deriving DecidableEq, Repr

abbrev Interpreted := Except YamlError

def malformed {α : Type} (message : String) (line : Nat) : Interpreted α :=
  .error (.malformed (ascii message) line)

/-- A message that quotes a piece of the document. -/
def malformedAt {α : Type} (before : String) (quoted : Bytes) (after : String) (line : Nat) :
    Interpreted α :=
  .error (.malformed (ascii before ++ quoted ++ ascii after) line)

def malformedIf (bad : Prop) [Decidable bad] (message : String) (line : Nat) : Interpreted Unit :=
  rejectIf bad (.malformed (ascii message) line)

def malformedAtIf (bad : Prop) [Decidable bad] (before : String) (quoted : Bytes)
    (after : String) (line : Nat) : Interpreted Unit :=
  rejectIf bad (.malformed (ascii before ++ quoted ++ ascii after) line)

def tooLargeIf (bad : Prop) [Decidable bad] (message : String) : Interpreted Unit :=
  rejectIf bad (.tooLarge (ascii message))

def requireScalar (node : YamlNode) (what : String) : Interpreted Bytes :=
  match node with
  | .scalar text _ => .ok text
  | _ => malformed ("expected " ++ what) node.line

def requireSequence (node : YamlNode) (what : String) : Interpreted (List YamlNode) :=
  match node with
  | .sequence items _ => .ok items
  | _ => malformed ("expected " ++ what) node.line

def requireMapping (node : YamlNode) (what : String) : Interpreted (List (Bytes × YamlNode)) :=
  match node with
  | .mapping entries _ => .ok entries
  | _ => malformed ("expected " ++ what) node.line

def findEntry (entries : List (Bytes × YamlNode)) (key : String) : Option YamlNode :=
  (entries.find? fun entry => entry.1 == ascii key).map Prod.snd

/-- An optional entry: its interpretation where it is present, else the default. -/
def whenPresent {α : Type} (entry : Option YamlNode) (default : α)
    (interpret : YamlNode → Interpreted α) : Interpreted α :=
  match entry with
  | some node => interpret node
  | none => .ok default

def rejectUnknownKeys (entries : List (Bytes × YamlNode)) (line : Nat) (allowed : List String) :
    Interpreted Unit :=
  match entries.find? fun entry => !(allowed.map ascii).contains entry.1 with
  | some entry => malformedAt "unknown key '" entry.1 "'" line
  | none => .ok ()

def kMaximumCiStepsPerJob : Nat := 128
def kMaximumCiEnvEntries : Nat := 64
def kMaximumCiBranches : Nat := 64
def kMaximumCiArgvItems : Nat := 64
def kMaximumCiNameBytes : Nat := 64
def kMaximumCiKeyBytes : Nat := 128
def kMaximumCiScriptBytes : Nat := 16 * 1024
def kMaximumCiArtifactPaths : Nat := 64
def kMaximumCiSisters : Nat := 16
def kMaximumCiCaches : Nat := 8
def kMaximumCiCacheEnv : Nat := 8
def kMaximumCiRetentionDaysCap : Nat := 3650
def kMaximumCiCheckoutDepth : Nat := 100000

abbrev CiEnv := List (Bytes × Bytes)

/-- One step: an exact argument vector, or a script for a shell. -/
structure CiStep where
  name : Bytes := []
  argv : List Bytes := []
  script : Bytes := []
  shell : Bytes := []
  deriving DecidableEq

def CiStep.usesShell (step : CiStep) : Bool := step.argv.isEmpty

structure CiArtifact where
  name : Bytes
  paths : List Bytes := []
  retention_days : UInt32 := 0
  deriving DecidableEq

structure CiJob where
  name : Bytes
  env : CiEnv := []
  steps : List CiStep := []
  artifact : Option CiArtifact := none
  runs_on : List Bytes := []
  needs : List Bytes := []
  deriving DecidableEq

structure CiCheckout where
  depth : UInt32 := 1
  since : Bytes := []
  tags : Bool := false
  archive : Bool := false
  deriving DecidableEq

structure CiSister where
  name : Bytes
  ref : Bytes := []
  checkout : CiCheckout := {}
  deriving DecidableEq

structure CiCache where
  name : Bytes
  env : List Bytes := []
  deriving DecidableEq

structure CiWorkflow where
  version : Nat := 1
  auto_cancel : Bool := true
  branches : List Bytes := []
  tags : List Bytes := []
  triggers_default_branch : Bool := false
  env : CiEnv := []
  sisters : List CiSister := []
  checkout : CiCheckout := {}
  runs_on : List Bytes := []
  caches : List CiCache := []
  jobs : List CiJob := []
  pages_path : Option Bytes := none
  pages_job : Bytes := []
  deriving DecidableEq

def isLetter (character : UInt8) : Bool := isUpperCase character || isLowerCase character

def isValidEnvName (name : Bytes) : Bool :=
  !name.isEmpty && name.length ≤ kMaximumCiKeyBytes
    && (name.take 1).all (fun first => isLetter first || first == '_'.toUInt8)
    && name.all fun character => isAlnum character || character == '_'.toUInt8

/-- An exact tag name, or one trailing wildcard. -/
def isValidTagPattern (pattern : Bytes) : Bool :=
  !pattern.isEmpty && pattern.length ≤ 128
    && (if pattern.getLast? = some '*'.toUInt8 then pattern.dropLast else pattern).all
      isNameCharacter

def isValidSisterRef (ref : Bytes) : Bool :=
  !(ref.isEmpty || ref.length > 255 || ref.head? == some '-'.toUInt8
    || ref.head? == some '/'.toUInt8 || hasInfix (ascii "..") ref)
    && ref.all fun character => isNameCharacter character || character == '/'.toUInt8

def isValidCiName (name : Bytes) : Bool :=
  !name.isEmpty && name.length ≤ kMaximumCiNameBytes && name.all isNameCharacter

/-- A YYYY-MM-DD calendar date. -/
def isValidIsoDate (value : Bytes) : Bool :=
  match value with
  | [y₁, y₂, y₃, y₄, dash, m₁, m₂, dash', d₁, d₂] =>
    let month := digitsValue [m₁, m₂]
    let day := digitsValue [d₁, d₂]
    dash == '-'.toUInt8 && dash' == '-'.toUInt8 && [y₁, y₂, y₃, y₄, m₁, m₂, d₁, d₂].all isDigit
      && 1 ≤ month && month ≤ 12 && 1 ≤ day && day ≤ 31
  | _ => false

def interpretBoolean (node : YamlNode) (what : String) : Interpreted Bool := do
  let value ← requireScalar node what
  if value = ascii "true" then return true
  if value = ascii "false" then return false
  malformed (what ++ " (true or false)") node.line

def interpretDepth (node : YamlNode) (line : Nat) : Interpreted UInt32 := do
  let text ← requireScalar node "depth to be a number"
  match parseDecimal kMaximumCiCheckoutDepth text with
  | some value => return .ofNat value
  | none => malformed "depth must be 0 (full history) to 100000" line

/-- The history keys shared by `checkout:` and a sister mapping. -/
def interpretHistory (entries : List (Bytes × YamlNode)) (line : Nat) (checkout : CiCheckout) :
    Interpreted CiCheckout := do
  let depth := findEntry entries "depth"
  let since := findEntry entries "since"
  malformedIf (depth.isSome ∧ since.isSome) "give either 'depth' or 'since', not both" line
  let depth ← whenPresent depth checkout.depth fun node => interpretDepth node line
  let since ← whenPresent since checkout.since fun node => do
    let text ← requireScalar node "since to be a date"
    malformedIf (¬ isValidIsoDate text) "since must be a date like 2026-01-31" line
    return text
  let tags ← whenPresent (findEntry entries "tags") checkout.tags fun node =>
    interpretBoolean node "tags must be a boolean"
  return { checkout with depth, since, tags }

def interpretCheckout (node : YamlNode) : Interpreted CiCheckout := do
  let entries ← requireMapping node "checkout to be a mapping"
  rejectUnknownKeys entries node.line ["depth", "since", "tags", "mode"]
  let checkout ← interpretHistory entries node.line {}
  match findEntry entries "mode" with
  | none => return checkout
  | some mode =>
    let value ← requireScalar mode "checkout mode to be a scalar"
    if value = ascii "archive" then return { checkout with archive := true }
    else
      malformedIf (value ≠ ascii "git") "checkout mode must be 'git' or 'archive'" node.line
      return checkout

def interpretEnv (node : YamlNode) : Interpreted CiEnv := do
  let entries ← requireMapping node "env to be a mapping of name: value"
  tooLargeIf (entries.length > kMaximumCiEnvEntries) "env has too many entries"
  entries.mapM fun entry => do
    malformedAtIf (¬ isValidEnvName entry.1) "invalid environment name '" entry.1 "'" node.line
    return (entry.1, ← requireScalar entry.2 "an env value to be a scalar")

def interpretPath (line : Nat) (item : YamlNode) : Interpreted Bytes := do
  let value ← requireScalar item "each artifact path to be a scalar"
  malformedAtIf (¬ isSafeRelativePath value) "unsafe or absolute artifact path '" value "'" line
  return value

def interpretRetention (node : YamlNode) (line : Nat) : Interpreted UInt32 := do
  let text ← requireScalar node "retention_days to be a number"
  match parseDecimal kMaximumCiRetentionDaysCap text with
  | some (value + 1) => return .ofNat (value + 1)
  | _ => malformed "retention_days must be a positive number of days" line

def interpretArtifact (node : YamlNode) (job_name : Bytes) : Interpreted CiArtifact := do
  let entries ← requireMapping node "artifacts to be a mapping"
  rejectUnknownKeys entries node.line ["paths", "name", "retention_days"]
  let name ← whenPresent (findEntry entries "name") job_name fun name => do
    let name ← requireScalar name "an artifact name to be a scalar"
    malformedAtIf (¬ isValidCiName name) "invalid artifact name '" name "'" node.line
    return name
  -- A release record is release.ini beside the sidecars of its assets.
  malformedIf (name = ascii "release")
    "artifact name 'release' is reserved for the release record" node.line
  match findEntry entries "paths" with
  | none => malformed "artifacts needs a 'paths' list" node.line
  | some paths =>
    let items ← requireSequence paths "artifact paths to be a list"
    malformedIf (items.isEmpty) "artifact paths is empty" node.line
    tooLargeIf (items.length > kMaximumCiArtifactPaths) "too many artifact paths"
    let paths ← items.mapM (interpretPath node.line)
    let retention_days ← whenPresent (findEntry entries "retention_days") 0 fun retention =>
      interpretRetention retention node.line
    return { name, paths, retention_days }

/-- One label, or the labels of a list. -/
def labelTexts (node : YamlNode) : Interpreted (List Bytes) :=
  match node with
  | .scalar text _ => .ok [text]
  | node => do
    let items ← requireSequence node "runs_on to be a label or a list of labels"
    tooLargeIf (items.length > kMaximumCiLabels) "too many runs_on labels"
    items.mapM fun item => requireScalar item "each runs_on label to be a scalar"

def interpretLabels (runs_on : Option YamlNode) : Interpreted (List Bytes) := do
  match runs_on with
  | none => return []
  | some node =>
    let labels ← labelTexts node
    match labels.find? fun label => !isValidCiLabel label with
    | some label =>
      malformedAt "invalid runs_on label '" label
        "' (lowercase letters, digits, '.', '_', '-'; at most 32)" node.line
    | none => return sortedUnique labels

def interpretShell (node : Option YamlNode) : Interpreted Bytes := do
  match node with
  | none => return []
  | some node =>
    let shell ← requireScalar node "shell to be a name"
    malformedIf (¬ [ascii "sh", ascii "powershell", ascii "pwsh"].contains shell)
      "shell must be sh, powershell, or pwsh" node.line
    return shell

def interpretStepName (entries : List (Bytes × YamlNode)) (line : Nat) : Interpreted Bytes := do
  match findEntry entries "name" with
  | none => return []
  | some node =>
    let name ← requireScalar node "a step name to be a scalar"
    malformedIf (name.isEmpty || name.length > kMaximumCiNameBytes)
      "a step name is empty or too long" line
    return name

def interpretStep (node : YamlNode) (version : Nat) : Interpreted CiStep := do
  let entries ← requireMapping node "a step to be a mapping"
  rejectUnknownKeys entries node.line
    (if version = 1 then ["name", "run", "script"] else ["name", "run", "script", "shell"])
  let shell ← interpretShell (findEntry entries "shell")
  let name ← interpretStepName entries node.line
  match findEntry entries "run", findEntry entries "script" with
  | some _, some _ | none, none =>
    malformed "a step needs exactly one of 'run' or 'script'" node.line
  | none, some script =>
    let script ← requireScalar script "script to be text"
    malformedIf (script.isEmpty) "a script is empty" node.line
    tooLargeIf (script.length > kMaximumCiScriptBytes) "a script exceeds its length limit"
    return { name, shell, script }
  | some (.scalar script _), none =>
    malformedIf (script.isEmpty) "a run command is empty" node.line
    return { name, shell, script }
  | some run, none =>
    malformedIf (¬ shell.isEmpty) "shell cannot be combined with an argv list" node.line
    let items ← requireSequence run "run to be a command line or an argv list"
    malformedIf (items.isEmpty) "a run argv list is empty" node.line
    tooLargeIf (items.length > kMaximumCiArgvItems) "a run argv list is too long"
    let argv ← items.mapM fun item => do
      let argument ← requireScalar item "each argv item to be a scalar"
      malformedIf (argument.isEmpty) "an argv item is empty" node.line
      return argument
    return { name, argv }

/-- The listed names in order; each valid and listed once. -/
def interpretNeeds (items : List YamlNode) (seen : List Bytes) : Interpreted (List Bytes) := do
  match items with
  | [] => return []
  | item :: rest =>
    let value ← requireScalar item "dependency to be a job name"
    malformedIf (¬ isValidCiName value || seen.contains value)
      "invalid or duplicate job dependency" item.line
    return value :: (← interpretNeeds rest (value :: seen))

def interpretSteps (steps : YamlNode) (job_name shell : Bytes) (line version : Nat) :
    Interpreted (List CiStep) := do
  let items ← requireSequence steps "steps to be a list"
  malformedAtIf (items.isEmpty) "job '" job_name "' has no steps" line
  tooLargeIf (items.length > kMaximumCiStepsPerJob) "a job has too many steps"
  items.mapM fun item => do
    let step ← interpretStep item version
    -- An exact argv step never acquires a shell.
    return if step.usesShell && step.shell.isEmpty then { step with shell } else step

def interpretJob (node : YamlNode) (version : Nat) : Interpreted CiJob := do
  let entries ← requireMapping node "each job to be a mapping"
  rejectUnknownKeys entries node.line
    (if version = 1 then ["name", "env", "steps", "artifacts"]
      else ["name", "env", "steps", "artifacts", "runs_on", "needs", "shell"])
  let shell ← interpretShell (findEntry entries "shell")
  let runs_on ← interpretLabels (findEntry entries "runs_on")
  let needs ← whenPresent (findEntry entries "needs") [] fun needs => do
    let items ← requireSequence needs "needs to be a list of job names"
    tooLargeIf (items.length > kMaximumCiJobs) "too many job dependencies"
    interpretNeeds items []
  match findEntry entries "name" with
  | none => malformed "a job is missing 'name'" node.line
  | some name =>
    let name ← requireScalar name "a job name to be a scalar"
    malformedAtIf (¬ isValidCiName name) "invalid job name '" name "'" node.line
    malformedAtIf (version = 2 && runs_on.isEmpty)
      "version 2 job '" name "' requires non-empty runs_on labels" node.line
    let env ← whenPresent (findEntry entries "env") [] interpretEnv
    match findEntry entries "steps" with
    | none => malformedAt "job '" name "' has no steps" node.line
    | some steps =>
      let steps ← interpretSteps steps name shell node.line version
      let artifact ← whenPresent (findEntry entries "artifacts") none fun artifacts =>
        (interpretArtifact artifacts name).map some
      return { name, env, steps, artifact, runs_on, needs }

def interpretVersion (entries : List (Bytes × YamlNode)) (line : Nat) : Interpreted Nat := do
  match findEntry entries "version" with
  | none => malformed "the workflow is missing 'version'" line
  | some node =>
    let text ← requireScalar node "version to be a number"
    match parseDecimalInt (2 ^ 31) (2 ^ 31 - 1) text with
    | some 1 => return 1
    | some 2 => return 2
    | _ => malformed "version must be 1 or 2" line

/-- A trigger list of `on:`. -/
def interpretTriggers (node : YamlNode) (what each many invalid : String)
    (valid : Bytes → Bool) (line : Nat) : Interpreted (List Bytes) := do
  let items ← requireSequence node (what ++ " to be a list")
  tooLargeIf (items.length > kMaximumCiBranches) many
  items.mapM fun item => do
    let value ← requireScalar item each
    malformedAtIf (¬ valid value) invalid value "'" line
    return value

/-- Branches, tags and whether the default branch is built. -/
def interpretOn (on : Option YamlNode) : Interpreted (List Bytes × List Bytes × Bool) := do
  match on with
  | none => return ([], [ascii "*"], true)
  | some node =>
    let entries ← requireMapping node "'on' to be a mapping"
    rejectUnknownKeys entries node.line ["branches", "tags"]
    let branches ← whenPresent (findEntry entries "branches") [] fun branches =>
      interpretTriggers branches "branches" "each branch to be a scalar" "too many branches"
        "invalid branch name '" isValidBranchName node.line
    let tags ← whenPresent (findEntry entries "tags") [] fun tags =>
      interpretTriggers tags "tags" "each tag to be a scalar" "too many tags"
        "invalid tag pattern '" isValidTagPattern node.line
    return (branches, tags, false)

/-- A bare project name, or a mapping that pins it. -/
def sisterOf (item : YamlNode) : Interpreted CiSister :=
  match item with
  | .scalar name _ => .ok { name }
  | .mapping entries line => do
    rejectUnknownKeys entries line ["name", "ref", "depth", "since", "tags"]
    match findEntry entries "name" with
    | none => malformed "a sister needs a 'name'" line
    | some name =>
      let name ← requireScalar name "a sister name to be a scalar"
      let ref ← whenPresent (findEntry entries "ref") [] fun ref => do
        let ref ← requireScalar ref "a sister ref to be a scalar"
        malformedAtIf (¬ isValidSisterRef ref) "invalid sister ref '" ref "'" line
        return ref
      let checkout ← interpretHistory entries line {}
      return { name, ref, checkout }
  | item => malformed "each sister to be a name or a \x7b name, ref \x7d mapping" item.line

def interpretSister (line : Nat) (seen : List Bytes) (item : YamlNode) :
    Interpreted CiSister := do
  let sister ← sisterOf item
  malformedAtIf (¬ isValidProjectName sister.name)
    "invalid sister project name '" sister.name "'" line
  malformedAtIf (seen.contains sister.name) "duplicate sister project '" sister.name "'" line
  return sister

def interpretSisters (items : List YamlNode) (line : Nat) (seen : List Bytes) :
    Interpreted (List CiSister) := do
  match items with
  | [] => return []
  | item :: rest =>
    let sister ← interpretSister line seen item
    return sister :: (← interpretSisters rest line (sister.name :: seen))

/-- A bare cache name, or a mapping that also binds variables to it. -/
def cacheOf (item : YamlNode) : Interpreted CiCache :=
  match item with
  | .scalar name _ => .ok { name }
  | .mapping entries line => do
    rejectUnknownKeys entries line ["name", "env"]
    match findEntry entries "name" with
    | none => malformed "a cache needs a 'name'" line
    | some name =>
      let name ← requireScalar name "a cache name to be a scalar"
      let env ← whenPresent (findEntry entries "env") [] fun env => do
        let items ← requireSequence env "cache env to be a list"
        tooLargeIf (items.length > kMaximumCiCacheEnv) "a cache has too many env bindings"
        items.mapM fun item => do
          let value ← requireScalar item "a cache env name to be a scalar"
          malformedAtIf (¬ isValidEnvName value) "invalid cache env name '" value "'" line
          return value
      return { name, env }
  | item => malformed "each cache to be a name or a \x7b name, env \x7d mapping" item.line

def interpretCache (line : Nat) (seen : List Bytes) (item : YamlNode) : Interpreted CiCache := do
  let cache ← cacheOf item
  malformedAtIf (¬ isValidCiName cache.name) "invalid cache name '" cache.name "'" line
  malformedAtIf (seen.contains cache.name) "duplicate cache '" cache.name "'" line
  return cache

def interpretCaches (items : List YamlNode) (line : Nat) (seen : List Bytes) :
    Interpreted (List CiCache) := do
  match items with
  | [] => return []
  | item :: rest =>
    let cache ← interpretCache line seen item
    return cache :: (← interpretCaches rest line (cache.name :: seen))

/-- The job a version 2 site comes from. -/
def interpretPagesJob (entries : List (Bytes × YamlNode)) (line : Nat) : Interpreted Bytes := do
  match findEntry entries "job" with
  | none => malformed "version-2 pages requires its producing job" line
  | some job =>
    let job ← requireScalar job "pages job to be a name"
    malformedIf (¬ isValidCiName job) "invalid pages job name" line
    return job

/-- The published path and, in version 2, the job that produces it. -/
def interpretPages (node : YamlNode) (version : Nat) : Interpreted (Option Bytes × Bytes) := do
  let entries ← requireMapping node "pages to be a mapping"
  rejectUnknownKeys entries node.line (if version = 1 then ["path"] else ["path", "job"])
  let job ← (if version = 2 then interpretPagesJob entries node.line else .ok [])
  match findEntry entries "path" with
  | none => malformed "pages needs a 'path'" node.line
  | some path =>
    let path ← requireScalar path "pages path to be a scalar"
    malformedAtIf (¬ isSafeRelativePath path) "unsafe or absolute pages path '" path "'" node.line
    return (some path, job)

def interpretJobs (items : List YamlNode) (version : Nat) (seen : List Bytes) :
    Interpreted (List CiJob) := do
  match items with
  | [] => return []
  | node :: rest =>
    let job ← interpretJob node version
    malformedAtIf (seen.contains job.name) "duplicate job name '" job.name "'" node.line
    return job :: (← interpretJobs rest version (job.name :: seen))

/-- One round over the jobs: those whose needs are all completed are completed too. -/
def completeRound (jobs : List CiJob) (completed : List Bytes) : List Bytes :=
  jobs.foldl (fun completed job =>
    if job.needs.all completed.contains then completed.insert job.name else completed) completed

/-- Rounds until every job is completed. Each round but a failing one adds a
job, so as many rounds as there are jobs are enough. -/
def completeAll (jobs : List CiJob) : Nat → List Bytes → Bool
  | 0, completed => completed.length ≥ jobs.length
  | rounds + 1, completed =>
    if completed.length < jobs.length then
      let next := completeRound jobs completed
      if next.length = completed.length then false else completeAll jobs rounds next
    else true

/-- A version 2 workflow names its site's job, and its bundles differ in name. -/
def checkOutputs (workflow : CiWorkflow) (line : Nat) : Interpreted Unit := do
  malformedIf (¬ workflow.pages_job.isEmpty
      ∧ ¬ (workflow.jobs.map CiJob.name).contains workflow.pages_job)
    "pages names an unknown producing job" line
  malformedIf (¬ ((workflow.jobs.filterMap CiJob.artifact).map CiArtifact.name).Nodup)
    "distributed jobs must use unique artifact names" line

def checkNeed (names : List Bytes) (job : CiJob) (line : Nat) (dependency : Bytes) :
    Interpreted Unit :=
  rejectIf (dependency = job.name ∨ ¬ names.contains dependency)
    (.malformed (ascii "unknown or self dependency '" ++ dependency ++ ascii "' in job '"
      ++ job.name ++ ascii "'") line)

/-- The checks made once every job is known. -/
def checkGraph (workflow : CiWorkflow) (line : Nat) : Interpreted Unit := do
  if workflow.version = 2 then checkOutputs workflow line else pure ()
  let names := workflow.jobs.map CiJob.name
  workflow.jobs.forM fun job => job.needs.forM (checkNeed names job line)
  malformedIf (¬ completeAll workflow.jobs workflow.jobs.length [])
    "job dependencies contain a cycle" line

def interpret (root : YamlNode) : Interpreted CiWorkflow := do
  let entries ← requireMapping root "the workflow to be a mapping"
  rejectUnknownKeys entries root.line
    ["version", "on", "env", "sisters", "checkout", "runs_on", "cache", "jobs", "pages",
      "auto_cancel"]
  let version ← interpretVersion entries root.line
  let auto_cancel ← whenPresent (findEntry entries "auto_cancel") true fun value =>
    interpretBoolean value "auto_cancel must be a boolean"
  let (branches, tags, triggers_default_branch) ← interpretOn (findEntry entries "on")
  let env ← whenPresent (findEntry entries "env") [] interpretEnv
  let sisters ← whenPresent (findEntry entries "sisters") [] fun sisters => do
    let items ← requireSequence sisters "sisters to be a list"
    tooLargeIf (items.length > kMaximumCiSisters) "too many sisters"
    interpretSisters items sisters.line []
  let checkout ← whenPresent (findEntry entries "checkout") {} interpretCheckout
  malformedIf (version = 2 ∧ (findEntry entries "runs_on").isSome)
    "version 2 requires runs_on on each job, not at workflow level" root.line
  let runs_on ← interpretLabels (findEntry entries "runs_on")
  let caches ← whenPresent (findEntry entries "cache") [] fun caches => do
    let items ← requireSequence caches "cache to be a list"
    tooLargeIf (items.length > kMaximumCiCaches) "too many caches"
    interpretCaches items caches.line []
  let (pages_path, pages_job) ← whenPresent (findEntry entries "pages") (none, []) fun pages =>
    interpretPages pages version
  match findEntry entries "jobs" with
  | none => malformed "the workflow is missing 'jobs'" root.line
  | some node =>
    let items ← requireSequence node "jobs to be a list"
    malformedIf (items.isEmpty) "the workflow has no jobs" root.line
    tooLargeIf (items.length > kMaximumCiJobs) "too many jobs"
    let jobs ← interpretJobs items version []
    let workflow : CiWorkflow :=
      { version, auto_cancel, branches, tags, triggers_default_branch, env, sisters, checkout,
        runs_on, caches, jobs, pages_path, pages_job }
    checkGraph workflow node.line
    return workflow

/-- A version 2 workflow reduced to the job a child runs. -/
def selectCiWorkflowJob (workflow : CiWorkflow) (name : Bytes) : Except String CiWorkflow :=
  if workflow.version ≠ 2 then .error "job selection requires workflow version 2"
  else match workflow.jobs.find? fun job => job.name == name with
    | none => .error "assigned workflow job does not exist"
    | some selected => .ok { workflow with
        jobs := [selected]
        runs_on := selected.runs_on
        pages_path := if workflow.pages_job = name then workflow.pages_path else none }

end CkGit.Workflow
