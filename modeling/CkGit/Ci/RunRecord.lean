import CkGit.Base.Checks
import CkGit.Ci.Records

/-!
run.ini: serializeRun, parseRun and the checks of writeCiRunRecord
(src/common/ci_store.cpp).
-/
namespace CkGit.Ci
open CkGit.Base

def fail {α : Type} (message : String) : Except String α := .error ("ci store: " ++ message)

def failIf (bad : Prop) [Decidable bad] (message : String) : Except String Unit :=
  rejectIf bad ("ci store: " ++ message)

def orFail {α : Type} (message : String) (value : Option α) : Except String α :=
  match value with
  | some a => .ok a
  | none => fail message

def frameLines (content : Bytes) : Except String (List Bytes) :=
  orFail "a CI record has invalid framing" (frame content)

def field (key : String) (line : Bytes) : Except String Bytes :=
  orFail "a CI record field is out of order or missing" (expectField (ascii key) line)

def fromHex (token : Bytes) (byte_cap : Nat) : Except String Bytes :=
  orFail "a CI field is not valid hex" (hexDecode token byte_cap)

def parseEpoch (text : Bytes) : Except String UInt64 :=
  (orFail "a CI timestamp is malformed" (parseDecimal (2 ^ 64 - 1) text)).map UInt64.ofNat

/-- What a line of a later schema holds, or its value in older ones. -/
def since {α : Type} (version schema : Nat) (old : α) (value : Except String α) :
    Except String α :=
  if schema ≤ version then value else .ok old

def validJobMembership (id parent name : Bytes) : Bool :=
  (parent.isEmpty && name.isEmpty) ||
    (isValidCiId parent && parent != id && isValidCiArtifactName name)

def flag (value : Bool) : Bytes := if value then ascii "1" else ascii "0"

def stepLine (step : CiStepResult) : Bytes :=
  ascii "step=" ++ [comma].intercalate
    [decimalInt step.exit_code.toInt, flag step.timed_out, flag step.output_truncated,
      hexEncode step.name]

def runHeader (run : CiRunRecord) : List Bytes :=
  [if run.execution.isSome then ascii "schema_version=5" else ascii "schema_version=4",
    ascii "run_id=" ++ run.run_id,
    ascii "project=" ++ run.project_name,
    ascii "ref_hex=" ++ hexEncode run.ref,
    ascii "commit=" ++ run.commit_id,
    ascii "status=" ++ ciRunStatusName run.status,
    ascii "started_epoch=" ++ decimal run.started_epoch_seconds.toNat,
    ascii "finished_epoch=" ++ decimal run.finished_epoch_seconds.toNat,
    ascii "heartbeat_epoch=" ++ decimal run.heartbeat_epoch_seconds.toNat,
    ascii "runner=" ++ (if run.runner.isEmpty then ascii "-" else run.runner),
    ascii "attempt=" ++ decimal run.attempt.toNat,
    ascii "parent_run_id=" ++ run.parent_run_id,
    ascii "workflow_job=" ++ run.workflow_job,
    ascii "detail_hex=" ++ hexEncode run.detail]
    ++ (match run.execution with
      | some report => [ascii "execution=" ++ formatCiExecutionReport report]
      | none => [])
    ++ [ascii "step_count=" ++ decimal run.steps.length]

def serializeRun (run : CiRunRecord) : Bytes := framed (runHeader run ++ run.steps.map stepLine)

def parseStep (line : Bytes) : Except String CiStepResult := do
  match (← field "step=" line).splitOn comma with
  | exit_text :: timed_out :: truncated :: name :: more =>
    let exit_code ← orFail "a CI step exit code is malformed"
      (parseDecimalInt (2 ^ 31) (2 ^ 31 - 1) exit_text)
    let name ← fromHex ([comma].intercalate (name :: more)) 256
    return { name, exit_code := .ofInt exit_code, timed_out := timed_out == ascii "1",
             output_truncated := truncated == ascii "1" }
  | _ => fail "a CI step line is malformed"

/-- The record's layout and the number of lines before its steps. -/
def runSchema (lines : List Bytes) : Except String (Nat × Nat) :=
  let wrong := "a CI run record has the wrong shape"
  match lines with
  | [] => fail wrong
  | first :: _ => do
    let (version, header) ←
      if first = ascii "schema_version=5" then .ok (5, 16)
      else if first = ascii "schema_version=4" then .ok (4, 15)
      else if first = ascii "schema_version=3" then .ok (3, 13)
      else if first = ascii "schema_version=2" then .ok (2, 11)
      else if first = ascii "schema_version=1" then .ok (1, 10)
      else fail wrong
    failIf (lines.length < header) wrong
    return (version, header)

/-- The runner and attempt lines of schema 3 and later. -/
def parseRunner (runner attempt : Bytes) : Except String (Bytes × UInt32) := do
  let runner ← field "runner=" runner
  failIf (runner ≠ ascii "-" ∧ ¬ isValidClientId runner) "a CI run record names an invalid runner"
  let attempt ← parseEpoch (← field "attempt=" attempt)
  failIf (attempt < 1 ∨ attempt > 1000) "a CI run record has an invalid attempt"
  return (if runner = ascii "-" then [] else runner, .ofNat attempt.toNat)

def parseRun (content : Bytes) : Except String CiRunRecord := do
  let lines ← frameLines content
  let (version, header) ← runSchema lines
  let line := fun index => lines.getD index []
  let run_id ← field "run_id=" (line 1)
  let project_name ← field "project=" (line 2)
  let ref ← fromHex (← field "ref_hex=" (line 3)) 512
  let commit_id ← field "commit=" (line 4)
  let status ← orFail "a CI run record has an unknown status"
    (ciRunStatusFromName (← field "status=" (line 5)))
  let started_epoch_seconds ← parseEpoch (← field "started_epoch=" (line 6))
  let finished_epoch_seconds ← parseEpoch (← field "finished_epoch=" (line 7))
  let heartbeat_epoch_seconds ← since version 2 0 do
    parseEpoch (← field "heartbeat_epoch=" (line 8))
  let (runner, attempt) ← since version 3 ([], 1) (parseRunner (line 9) (line 10))
  let parent_run_id ← since version 4 [] (field "parent_run_id=" (line 11))
  let workflow_job ← since version 4 [] (field "workflow_job=" (line 12))
  failIf (¬ validJobMembership run_id parent_run_id workflow_job) "invalid run membership"
  -- The remaining header lines are the last ones before the steps.
  let detail_at := if 5 ≤ version then header - 3 else header - 2
  let detail ← fromHex (← field "detail_hex=" (line detail_at)) kMaximumCiDetailBytes
  let execution ← since version 5 none do
    (parseCiExecutionReport (← field "execution=" (line (header - 2)))).map some
  let count ← orFail "a CI step count is malformed"
    (parseDecimal (2 ^ 64 - 1) (← field "step_count=" (line (header - 1))))
  failIf (count > kMaximumCiSteps ∨ lines.length ≠ header + count)
    "a CI run record has a mismatched step count"
  let steps ← (lines.drop header).mapM parseStep
  failIf (¬ (isValidCiId run_id ∧ isValidProjectName project_name ∧ isValidObjectId commit_id))
    "a CI run record contains invalid data"
  return { run_id, project_name, ref, commit_id, status, started_epoch_seconds,
           finished_epoch_seconds, heartbeat_epoch_seconds, runner, attempt, detail, steps,
           parent_run_id, workflow_job, execution }

/-- The text writeCiRunRecord stores, or why it refuses the record. -/
def runRecordText (record : CiRunRecord) : Except String Bytes := do
  failIf (¬ (validJobMembership record.run_id record.parent_run_id record.workflow_job
      ∧ isValidCiId record.run_id ∧ isValidProjectName record.project_name
      ∧ isValidObjectId record.commit_id)) "refusing to write an invalid CI run record"
  failIf (record.detail.length > kMaximumCiDetailBytes) "a CI run detail exceeds its size limit"
  failIf ((serializeRun record).length > kMaximumCiRunRecordBytes)
    "a CI run record exceeds its size limit"
  return serializeRun record

end CkGit.Ci
