import CkGit.Ci.RunRecord

/-!
How long a serialized run record is: its fixed keys, and what each field adds.
-/
namespace CkGit.Ci
open CkGit.Base

@[simp] theorem ascii_length (text : String) : (ascii text).length = text.length := by
  simp [ascii, String.length_toList]

@[simp] theorem flag_length (value : Bool) : (flag value).length = 1 := by
  cases value <;> rfl

theorem intercalate_four (a b c d : Bytes) :
    [comma].intercalate [a, b, c, d] = a ++ comma :: (b ++ comma :: (c ++ comma :: d)) := by
  simp [List.intercalate]

/-- A step's line with its newline. -/
def stepBytes (step : CiStepResult) : Nat :=
  11 + (decimalInt step.exit_code.toInt).length + 2 * step.name.length

def executionBytes (execution : Option CiExecutionReport) : Nat :=
  match execution with
  | some report => 11 + (formatCiExecutionReport report).length
  | none => 0

def CiRunRecord.shownRunner (run : CiRunRecord) : Bytes :=
  if run.runner.isEmpty then ascii "-" else run.runner

theorem stepLine_length (step : CiStepResult) : (stepLine step).length + 1 = stepBytes step := by
  have key : "step=".length = 5 := rfl
  simp only [stepLine, stepBytes, intercalate_four, List.length_append, List.length_cons,
    ascii_length, flag_length, hexEncode_length]
  omega

theorem keys_length :
    "schema_version=5".length = 16 ∧ "schema_version=4".length = 16 ∧ "run_id=".length = 7
      ∧ "project=".length = 8 ∧ "ref_hex=".length = 8 ∧ "commit=".length = 7
      ∧ "status=".length = 7 ∧ "started_epoch=".length = 14 ∧ "finished_epoch=".length = 15
      ∧ "heartbeat_epoch=".length = 16 ∧ "runner=".length = 7 ∧ "attempt=".length = 8
      ∧ "parent_run_id=".length = 14 ∧ "workflow_job=".length = 13 ∧ "detail_hex=".length = 11
      ∧ "execution=".length = 10 ∧ "step_count=".length = 11 := by
  decide

/-- The exact size of a run record. -/
theorem serializeRun_length (run : CiRunRecord) :
    (serializeRun run).length = 177 + run.run_id.length + run.project_name.length
      + 2 * run.ref.length + run.commit_id.length + (ciRunStatusName run.status).length
      + (decimal run.started_epoch_seconds.toNat).length
      + (decimal run.finished_epoch_seconds.toNat).length
      + (decimal run.heartbeat_epoch_seconds.toNat).length + run.shownRunner.length
      + (decimal run.attempt.toNat).length + run.parent_run_id.length + run.workflow_job.length
      + 2 * run.detail.length + executionBytes run.execution + (decimal run.steps.length).length
      + (run.steps.map stepBytes).sum := by
  have steps : run.steps.map ((fun line => line.length + 1) ∘ stepLine)
      = run.steps.map stepBytes := by
    apply List.map_congr_left
    intro step _
    exact stepLine_length step
  unfold serializeRun runHeader executionBytes CiRunRecord.shownRunner
  cases run.execution <;> simp [framed_length, steps, keys_length] <;> omega

theorem status_width (status : CiRunStatus) : (ciRunStatusName status).length ≤ 9 := by
  cases status <;> decide

theorem epoch_width (n : UInt64) : (decimal n.toNat).length ≤ 20 := by
  apply decimal_length_le (by decide)
  exact Nat.lt_trans n.toNat_lt (by decide)

theorem unsigned_width (n : UInt32) : (decimal n.toNat).length ≤ 10 := by
  apply decimal_length_le (by decide)
  exact Nat.lt_trans n.toNat_lt (by decide)

theorem attempt_width {n : UInt32} (h : n.toNat ≤ 1000) : (decimal n.toNat).length ≤ 4 := by
  apply decimal_length_le (by decide)
  omega

theorem shownRunner_width {run : CiRunRecord} (h : run.runner.length ≤ 64) :
    run.shownRunner.length ≤ 64 := by
  unfold CiRunRecord.shownRunner
  split
  · decide
  · exact h

/-- A sign and ten digits. -/
theorem exit_width (n : Int32) : (decimalInt n.toInt).length ≤ 11 := by
  have low := Int32.le_toInt n
  have high := Int32.toInt_lt n
  cases h : n.toInt with
  | ofNat m =>
    have small : m < 10 ^ 11 := by
      rw [h] at high
      have : m < 2 ^ 31 := Int.ofNat_lt.mp high
      omega
    exact decimal_length_le (by decide) small
  | negSucc m =>
    have small : m + 1 < 10 ^ 10 := by
      rw [h] at low
      omega
    have digits := decimal_length_le (by decide) small
    simp only [decimalInt, List.length_cons]
    omega

theorem execution_width (execution : Option CiExecutionReport) :
    executionBytes execution ≤ 98 := by
  cases execution with
  | none => exact Nat.zero_le _
  | some report =>
    have platform : report.platform.text.length + report.isolation.text.length ≤ 21 := by
      have consistent := report.consistent
      revert consistent
      cases report.platform <;> cases report.isolation <;> decide
    have architecture : report.architecture.text.length ≤ 5 := by
      cases report.architecture <;> decide
    have network : report.network.text.length ≤ 13 := by
      cases report.network <;> decide
    have memory := epoch_width report.memory_bytes
    have processes := unsigned_width report.process_limit
    have timeout := unsigned_width report.timeout_seconds
    have version : "1".length = 1 := rfl
    simp only [executionBytes, formatCiExecutionReport, List.intercalate]
    simp
    omega

theorem isValidCiId_length {id : Bytes} (h : isValidCiId id) : id.length ≤ kMaximumCiIdBytes := by
  simp only [isValidCiId, Bool.and_eq_true, decide_eq_true_eq] at h
  exact h.1.2

theorem isValidClientId_length {id : Bytes} (h : isValidClientId id) : id.length ≤ 64 := by
  simp only [isValidClientId, Bool.and_eq_true, decide_eq_true_eq] at h
  exact h.1.1.2

theorem isValidObjectId_length {id : Bytes} (h : isValidObjectId id) : id.length ≤ 64 := by
  simp only [isValidObjectId, Bool.and_eq_true, Bool.or_eq_true, beq_iff_eq] at h
  omega

theorem isValidProjectName_length {name : Bytes} (h : isValidProjectName name) :
    name.length ≤ 64 := by
  by_contra long
  have error : projectNameError name = "must contain 1 to 64 characters" := by
    have tooLong : name.length > 64 := Nat.not_le.mp long
    simp [projectNameError, tooLong]
  simp [isValidProjectName, error] at h

end CkGit.Ci
