import CkGit.Ci.RunCodec

/-!
The payload of a finish command: formatCiFinishReport and parseCiFinishReport
(src/common/ci_runner_protocol.cpp), and when a report reads back as it was.
-/
namespace CkGit.Ci
open CkGit.Base

def kMaximumCiFinishPayloadBytes : Nat := 512 * 1024
def kMaximumRetentionDays : Nat := 3650
/-- The longest note of an output, in bytes, and the longest step name. -/
def kMaximumHexTextBytes : Nat := 256
/-- The largest exit code, and its opposite the smallest. -/
def kMaximumExitMagnitude : Nat := 1000

/-- CiDeclaredOutput: an output the run declared. -/
structure CiDeclaredOutput where
  name : Bytes
  release : Bool := false
  retention_days : UInt32 := 0
  note : Bytes := []
  deriving DecidableEq

structure CiFinishReport where
  status : CiRunStatus := .error
  started_epoch_seconds : UInt64 := 0
  detail : Bytes := []
  steps : List CiStepResult := []
  outputs : List CiDeclaredOutput := []
  execution : Option CiExecutionReport := none
  deriving DecidableEq

def hexOrDash (text : Bytes) : Bytes := if text.isEmpty then ascii "-" else hexEncode text

def fromHexOrDash (token : Bytes) (byte_cap : Nat) : Option Bytes :=
  if token = ascii "-" then some [] else hexDecode token byte_cap

def finishStepFields (step : CiStepResult) : List Bytes :=
  [decimalInt step.exit_code.toInt, flag step.timed_out, flag step.output_truncated,
    hexOrDash step.name]

def finishStepLine (step : CiStepResult) : Bytes :=
  ascii "step=" ++ [comma].intercalate (finishStepFields step)

def finishOutputFields (output : CiDeclaredOutput) : List Bytes :=
  [output.name, flag output.release, decimal output.retention_days.toNat, hexOrDash output.note]

def finishOutputLine (output : CiDeclaredOutput) : Bytes :=
  ascii "output=" ++ [comma].intercalate (finishOutputFields output)

def finishExecutionLines (execution : Option CiExecutionReport) : List Bytes :=
  match execution with
  | some report => [ascii "execution=" ++ formatCiExecutionReport report]
  | none => []

def finishLines (report : CiFinishReport) : List Bytes :=
  [ascii "status=" ++ ciRunStatusName report.status,
    ascii "started_epoch=" ++ decimal report.started_epoch_seconds.toNat,
    ascii "detail_hex=" ++ hexEncode report.detail]
    ++ (finishExecutionLines report.execution ++ (report.steps.map finishStepLine
      ++ report.outputs.map finishOutputLine))

def formatCiFinishReport (report : CiFinishReport) : Bytes := framed (finishLines report)

/-- The lines of a payload, each with its newline. -/
def splitLines (text : Bytes) : Except String (List Bytes) :=
  if text.isEmpty then .ok []
  else if text.getLast? = some newline then .ok (text.splitOn newline).dropLast
  else .error "an unterminated line"

def finishField (key : String) (line : Bytes) : Except String Bytes :=
  match expectField (ascii key) line with
  | some value => .ok value
  | none => .error ("expected field " ++ key)

def number (what : String) (text : Bytes) : Except String Nat :=
  match parseDecimal (2 ^ 64 - 1) text with
  | some value => .ok value
  | none => .error ("malformed " ++ what)

def parseFinishExit (text : Bytes) : Except String Int32 := do
  let negative := text.head? == some '-'.toUInt8
  let magnitude ← number "exit code" (if negative then text.drop 1 else text)
  rejectIf (magnitude > kMaximumExitMagnitude) "malformed exit code"
  return if negative then -Int32.ofNat magnitude else Int32.ofNat magnitude

def parseFinishStep (held : Nat) (line : Bytes) : Except String CiStepResult := do
  match line.splitOn comma with
  | [exit_text, timed_out, truncated, name] =>
    rejectIf (held ≥ kMaximumCiSteps) "malformed step"
    let exit_code ← parseFinishExit exit_text
    match fromHexOrDash name kMaximumHexTextBytes with
    | none => .error "malformed step name"
    | some name =>
      return { name, exit_code, timed_out := timed_out == ascii "1",
               output_truncated := truncated == ascii "1" }
  | _ => .error "malformed step"

def parseFinishOutput (held : Nat) (line : Bytes) : Except String CiDeclaredOutput := do
  match line.splitOn comma with
  | [name, release, retention, note] =>
    rejectIf (held ≥ kMaximumCiJobs) "malformed output"
    let retention_days ← number "retention" retention
    match fromHexOrDash note kMaximumHexTextBytes with
    | none => .error "invalid output"
    | some note =>
      -- The cast to unsigned comes before the check.
      let retention_days := UInt32.ofNat retention_days
      rejectIf (¬ isValidCiArtifactName name ∨ retention_days.toNat > kMaximumRetentionDays)
        "invalid output"
      return { name, release := release == ascii "1", retention_days, note }
  | _ => .error "malformed output"

/-- One line after the header. -/
def absorb (report : CiFinishReport) (line : Bytes) : Except String CiFinishReport :=
  match expectField (ascii "execution=") line with
  | some text => do
    rejectIf report.execution.isSome "duplicate execution report"
    let execution ← parseCiExecutionReport text
    return { report with execution := some execution }
  | none =>
    match expectField (ascii "step=") line with
    | some text => do
      let step ← parseFinishStep report.steps.length text
      return { report with steps := report.steps ++ [step] }
    | none =>
      match expectField (ascii "output=") line with
      | some text => do
        let output ← parseFinishOutput report.outputs.length text
        return { report with outputs := report.outputs ++ [output] }
      | none => .error "unknown finish field"

def finalStatus (name : Bytes) : Except String CiRunStatus :=
  match ciRunStatusFromName name with
  | some status => do
    rejectIf (ciRunStatusIsActive status) "invalid final status"
    return status
  | none => .error "invalid final status"

def parseCiFinishReport (payload : Bytes) : Except String CiFinishReport := do
  rejectIf (payload.length > kMaximumCiFinishPayloadBytes) "finish payload too large"
  let lines ← splitLines payload
  match lines with
  | status :: started :: detail :: rest =>
    let status ← finalStatus (← finishField "status=" status)
    let started ← number "start time" (← finishField "started_epoch=" started)
    let detail ← finishField "detail_hex=" detail
    match hexDecode detail kMaximumCiDetailBytes with
    | none => .error "malformed detail"
    | some detail =>
      rest.foldlM absorb { status, started_epoch_seconds := .ofNat started, detail }
  | _ => .error "malformed finish payload"

theorem fromHexOrDash_hexOrDash {text read : Bytes} {limit : Nat} :
    fromHexOrDash (hexOrDash text) limit = some read ↔ read = text ∧ text.length ≤ limit := by
  unfold hexOrDash fromHexOrDash
  cases text with
  | nil => simp [eq_comm]
  | cons byte rest =>
    have filled : ((byte :: rest) : Bytes).isEmpty = false := rfl
    have even : hexEncode (byte :: rest) ≠ ascii "-" := by
      intro same
      have length := congrArg List.length same
      rw [hexEncode_length] at length
      have one : (ascii "-").length = 1 := rfl
      rw [one, List.length_cons] at length
      omega
    rw [filled]
    simp only [Bool.false_eq_true, if_false, if_neg even]
    constructor
    · intro read_back
      refine ⟨hexDecode_same read_back, ?_⟩
      have := hexDecode_length read_back
      rwa [hexDecode_same read_back] at this
    · rintro ⟨rfl, short⟩
      exact hexDecode_hexEncode short

theorem number_decimal {what : String} {n : Nat} (small : n ≤ 2 ^ 64 - 1) :
    number what (decimal n) = .ok n := by
  rw [number, parseDecimal_decimal small]

theorem decimal_head (n : Nat) : (decimal n).head? ≠ some '-'.toUInt8 := by
  intro sign
  obtain ⟨byte, rest, shape⟩ := List.exists_cons_of_ne_nil (decimal_ne_nil n)
  rw [shape, List.head?_cons, Option.some.injEq] at sign
  exact digit_ne (decimal_digits n byte (by rw [shape]; exact List.mem_cons_self)) rfl sign

/-- An exit code is read back exactly when it is at most 1000 either way. -/
theorem parseFinishExit_decimal {code read : Int32} :
    parseFinishExit (decimalInt code.toInt) = .ok read
      ↔ code.toInt.natAbs ≤ kMaximumExitMagnitude ∧ read = code := by
  have low := Int32.le_toInt code
  have high := Int32.toInt_lt code
  have back := Int32.ofInt_toInt code
  have limit : kMaximumExitMagnitude = 1000 := rfl
  generalize code.toInt = value at *
  cases value with
  | ofNat n =>
    have sign : ((decimal n).head? == some '-'.toUInt8) = false :=
      beq_eq_false_iff_ne.mpr (decimal_head n)
    have same : Int32.ofNat n = code := back
    have below : (n : Int) < 2 ^ 31 := high
    have small : n ≤ 2 ^ 64 - 1 := by omega
    simp only [parseFinishExit, decimalInt, sign, Bool.false_eq_true, if_false, bind_ok, pure_ok,
      number_decimal small, Except.ok.injEq, exists_eq_left', rejectIf_ok, same]
    constructor
    · rintro ⟨_, fits, rfl⟩
      exact ⟨Nat.not_lt.mp fits, rfl⟩
    · rintro ⟨fits, rfl⟩
      exact ⟨(), Nat.not_lt.mpr fits, rfl⟩
  | negSucc n =>
    have sign : (('-'.toUInt8 :: decimal (n + 1)).head? == some '-'.toUInt8) = true := rfl
    have same : -Int32.ofNat (n + 1) = code := by
      rw [← back]
      exact (Int32.ofInt_neg ((n + 1 : Nat) : Int)).symm
    have small : n + 1 ≤ 2 ^ 64 - 1 := by omega
    simp only [parseFinishExit, decimalInt, sign, if_true, List.drop_one, List.tail_cons, bind_ok,
      pure_ok, number_decimal small, Except.ok.injEq, exists_eq_left', rejectIf_ok, same]
    constructor
    · rintro ⟨_, fits, rfl⟩
      exact ⟨Nat.not_lt.mp fits, rfl⟩
    · rintro ⟨fits, rfl⟩
      exact ⟨(), Nat.not_lt.mpr fits, rfl⟩

theorem hexOrDash_avoids (text : Bytes) : newline ∉ hexOrDash text ∧ comma ∉ hexOrDash text := by
  unfold hexOrDash
  split
  · decide
  · exact hexEncode_avoids text

theorem finishStepFields_avoid (step : CiStepResult) {byte : UInt8}
    (separator : byte = newline ∨ byte = comma) : ∀ part ∈ finishStepFields step, byte ∉ part := by
  have name := hexOrDash_avoids step.name
  rcases separator with rfl | rfl
  all_goals
    intro part member
    simp only [finishStepFields, List.mem_cons, List.not_mem_nil, or_false] at member
    rcases member with rfl | rfl | rfl | rfl
  · exact decimalInt_avoids (by decide) (by decide)
  · cases step.timed_out <;> decide
  · cases step.output_truncated <;> decide
  · exact name.1
  · exact decimalInt_avoids (by decide) (by decide)
  · cases step.timed_out <;> decide
  · cases step.output_truncated <;> decide
  · exact name.2

def StepFits (step : CiStepResult) : Prop :=
  step.exit_code.toInt.natAbs ≤ kMaximumExitMagnitude ∧ step.name.length ≤ kMaximumHexTextBytes

theorem parseFinishStep_fields {step read : CiStepResult} {held : Nat} :
    parseFinishStep held ([comma].intercalate (finishStepFields step)) = .ok read
      ↔ held < kMaximumCiSteps ∧ StepFits step ∧ read = step := by
  have parts := List.splitOn_intercalate comma
    (fun part member => finishStepFields_avoid step (.inr rfl) part member) (List.cons_ne_nil _ _)
  unfold parseFinishStep StepFits
  rw [parts, finishStepFields]
  simp only [bind_ok, rejectIf_ok, parseFinishExit_decimal]
  constructor
  · rintro ⟨_, room, exit_code, ⟨small, rfl⟩, done⟩
    split at done
    · cases done
    · rename_i name decoded
      obtain ⟨rfl, short⟩ := fromHexOrDash_hexOrDash.mp decoded
      rw [pure_ok] at done
      subst done
      refine ⟨Nat.not_le.mp room, ⟨small, short⟩, ?_⟩
      simp [flag_flag]
  · rintro ⟨room, ⟨small, short⟩, rfl⟩
    refine ⟨(), Nat.not_le.mpr room, _, ⟨small, rfl⟩, ?_⟩
    rw [fromHexOrDash_hexOrDash.mpr ⟨rfl, short⟩]
    simp [pure_ok, flag_flag]

theorem expectField_other {key line : Bytes} (other : key.isPrefixOf line = false) :
    expectField key line = none := by
  rw [expectField, other]
  rfl

theorem absorb_step {report next : CiFinishReport} {step : CiStepResult} :
    absorb report (finishStepLine step) = .ok next
      ↔ (report.steps.length < kMaximumCiSteps ∧ StepFits step)
        ∧ next = { report with steps := report.steps ++ [step] } := by
  have other : expectField (ascii "execution=") (finishStepLine step) = none :=
    expectField_other rfl
  have own : expectField (ascii "step=") (finishStepLine step)
      = some ([comma].intercalate (finishStepFields step)) := expectField_append _ _
  simp only [absorb, other, own, bind_ok, pure_ok, parseFinishStep_fields]
  constructor
  · rintro ⟨_, ⟨room, fits, rfl⟩, rfl⟩
    exact ⟨⟨room, fits⟩, rfl⟩
  · rintro ⟨⟨room, fits⟩, rfl⟩
    exact ⟨step, ⟨room, fits, rfl⟩, rfl⟩

/-- An output the workflow schema allows. -/
def OutputAllowed (output : CiDeclaredOutput) : Prop :=
  isValidCiArtifactName output.name ∧ output.retention_days.toNat ≤ kMaximumRetentionDays

theorem finishOutputFields_avoid {output : CiDeclaredOutput} (allowed : OutputAllowed output)
    {byte : UInt8} (separator : byte = newline ∨ byte = comma) :
    ∀ part ∈ finishOutputFields output, byte ∉ part := by
  have note := hexOrDash_avoids output.note
  have name : output.name.all isNameCharacter := by
    have valid := allowed.1
    simp only [isValidCiArtifactName, Bool.and_eq_true] at valid
    exact valid.2
  rcases separator with rfl | rfl
  all_goals
    intro part member
    simp only [finishOutputFields, List.mem_cons, List.not_mem_nil, or_false] at member
    rcases member with rfl | rfl | rfl | rfl
  · exact not_mem_of_all name (by decide)
  · cases output.release <;> decide
  · exact decimal_avoids (by decide)
  · exact note.1
  · exact not_mem_of_all name (by decide)
  · cases output.release <;> decide
  · exact decimal_avoids (by decide)
  · exact note.2

theorem parseFinishOutput_fields {output read : CiDeclaredOutput} {held : Nat}
    (allowed : OutputAllowed output) :
    parseFinishOutput held ([comma].intercalate (finishOutputFields output)) = .ok read
      ↔ held < kMaximumCiJobs ∧ output.note.length ≤ kMaximumHexTextBytes ∧ read = output := by
  have parts := List.splitOn_intercalate comma
    (fun part member => finishOutputFields_avoid allowed (.inr rfl) part member) (List.cons_ne_nil _ _)
  have small : output.retention_days.toNat ≤ 2 ^ 64 - 1 := by
    have := output.retention_days.toNat_lt
    omega
  have back : UInt32.ofNat output.retention_days.toNat = output.retention_days := UInt32.ofNat_toNat
  unfold parseFinishOutput
  rw [parts, finishOutputFields]
  simp only [bind_ok, rejectIf_ok, number_decimal small, Except.ok.injEq, exists_eq_left', back]
  constructor
  · rintro ⟨_, room, done⟩
    split at done
    · cases done
    · rename_i note decoded
      obtain ⟨rfl, short⟩ := fromHexOrDash_hexOrDash.mp decoded
      simp only [bind_ok, pure_ok] at done
      obtain ⟨_, _, rfl⟩ := done
      refine ⟨Nat.not_le.mp room, short, ?_⟩
      simp [flag_flag]
  · rintro ⟨room, short, rfl⟩
    refine ⟨(), Nat.not_le.mpr room, ?_⟩
    rw [fromHexOrDash_hexOrDash.mpr ⟨rfl, short⟩]
    simp only [bind_ok, pure_ok]
    refine ⟨(), rejectIf_ok.mpr ?_, by simp [flag_flag]⟩
    rintro (invalid | long)
    · exact invalid allowed.1
    · exact absurd allowed.2 (Nat.not_le.mpr long)

theorem absorb_output {report next : CiFinishReport} {output : CiDeclaredOutput}
    (allowed : OutputAllowed output) :
    absorb report (finishOutputLine output) = .ok next
      ↔ (report.outputs.length < kMaximumCiJobs ∧ output.note.length ≤ kMaximumHexTextBytes)
        ∧ next = { report with outputs := report.outputs ++ [output] } := by
  have notExecution : expectField (ascii "execution=") (finishOutputLine output) = none :=
    expectField_other rfl
  have notStep : expectField (ascii "step=") (finishOutputLine output) = none :=
    expectField_other rfl
  have own : expectField (ascii "output=") (finishOutputLine output)
      = some ([comma].intercalate (finishOutputFields output)) := expectField_append _ _
  simp only [absorb, notExecution, notStep, own, bind_ok, pure_ok, parseFinishOutput_fields allowed]
  constructor
  · rintro ⟨_, ⟨room, fits, rfl⟩, rfl⟩
    exact ⟨⟨room, fits⟩, rfl⟩
  · rintro ⟨⟨room, fits⟩, rfl⟩
    exact ⟨output, ⟨room, fits, rfl⟩, rfl⟩

theorem foldlM_append {α β ε : Type} (f : β → α → Except ε β) (front back : List α) (start last : β) :
    (front ++ back).foldlM f start = .ok last
      ↔ ∃ middle, front.foldlM f start = .ok middle ∧ back.foldlM f middle = .ok last := by
  rw [List.foldlM_append, bind_ok]

/-- Lines that each add an item up to a limit, one after the other. -/
theorem foldlM_items {σ α β ε : Type} {f : σ → β → Except ε σ} {line : α → β} {items : σ → List α} {limit : Nat}
    {Good : α → Prop} {add : σ → List α → σ} {all : List α} {start last : σ}
    (one : ∀ item ∈ all, ∀ before after, f before (line item) = .ok after
      ↔ ((items before).length < limit ∧ Good item) ∧ after = add before [item])
    (grows : ∀ before more, items (add before more) = items before ++ more) (none : ∀ before, add before [] = before)
    (joined : ∀ before front back, add (add before front) back = add before (front ++ back)) :
    (all.map line).foldlM f start = .ok last
      ↔ ((all ≠ [] → (items start).length + all.length ≤ limit) ∧ ∀ item ∈ all, Good item)
        ∧ last = add start all := by
  induction all generalizing start with
  | nil => simp [none, pure, Except.pure, eq_comm]
  | cons item rest ih =>
    have rest_one := fun other member => one other (List.mem_cons_of_mem _ member)
    simp only [List.map_cons, List.foldlM_cons, bind_ok, one item List.mem_cons_self]
    constructor
    · rintro ⟨_, ⟨⟨room, good⟩, rfl⟩, later⟩
      obtain ⟨⟨count, others⟩, rfl⟩ := (ih rest_one).mp later
      refine ⟨⟨fun _ => ?_, List.forall_mem_cons.mpr ⟨good, others⟩⟩, joined _ _ _⟩
      cases rest with
      | nil => exact room
      | cons => simpa [grows, Nat.add_assoc, Nat.add_comm, Nat.add_left_comm] using count (by simp)
    · rintro ⟨⟨count, all_good⟩, rfl⟩
      have total := count (by simp)
      simp only [List.length_cons] at total
      obtain ⟨good, others⟩ := List.forall_mem_cons.mp all_good
      refine ⟨_, ⟨⟨by omega, good⟩, rfl⟩, (ih rest_one).mpr ⟨⟨fun _ => ?_, others⟩, (joined start [item] rest).symm⟩⟩
      rw [grows, List.length_append, List.length_singleton]
      omega

theorem absorb_steps {report next : CiFinishReport} {steps : List CiStepResult} :
    (steps.map finishStepLine).foldlM absorb report = .ok next
      ↔ ((steps ≠ [] → report.steps.length + steps.length ≤ kMaximumCiSteps)
          ∧ ∀ step ∈ steps, StepFits step)
        ∧ next = { report with steps := report.steps ++ steps } :=
  @foldlM_items _ _ _ _ _ _ CiFinishReport.steps _ _
    (fun report more => { report with steps := report.steps ++ more }) _ _ _ (fun _ _ _ _ => absorb_step)
    (fun _ _ => rfl) (fun _ => by simp) fun _ _ _ => by simp

theorem absorb_outputs {report next : CiFinishReport} {outputs : List CiDeclaredOutput}
    (allowed : ∀ output ∈ outputs, OutputAllowed output) :
    (outputs.map finishOutputLine).foldlM absorb report = .ok next
      ↔ ((outputs ≠ [] → report.outputs.length + outputs.length ≤ kMaximumCiJobs)
          ∧ ∀ output ∈ outputs, output.note.length ≤ kMaximumHexTextBytes)
        ∧ next = { report with outputs := report.outputs ++ outputs } :=
  @foldlM_items _ _ _ _ _ _ CiFinishReport.outputs _ (fun output => output.note.length ≤ kMaximumHexTextBytes)
    (fun report more => { report with outputs := report.outputs ++ more }) _ _ _
    (fun output member _ _ => absorb_output (allowed output member)) (fun _ _ => rfl) (fun _ => by simp)
    fun _ _ _ => by simp

theorem absorb_execution {report next : CiFinishReport} {execution : Option CiExecutionReport}
    (fresh : report.execution = none) :
    (finishExecutionLines execution).foldlM absorb report = .ok next
      ↔ next = { report with execution } := by
  cases execution with
  | none =>
    have same : { report with execution := none } = report := by
      rw [← fresh]
    rw [same]
    simp [finishExecutionLines, pure, Except.pure, eq_comm]
  | some own =>
    have line : expectField (ascii "execution=") (ascii "execution=" ++ formatCiExecutionReport own)
        = some (formatCiExecutionReport own) := expectField_append _ _
    have empty : ¬ report.execution.isSome := by
      rw [fresh]
      decide
    simp only [finishExecutionLines, List.foldlM_cons, List.foldlM_nil, absorb, line, bind_ok, pure_ok,
      rejectIf_ok, parseCiExecutionReport_format, Except.ok.injEq, exists_eq_left']
    constructor
    · rintro ⟨_, ⟨_, _, rfl⟩, rfl⟩
      rfl
    · rintro rfl
      exact ⟨_, ⟨(), empty, rfl⟩, rfl⟩

/-- A report a runner sends: its run has ended, and its outputs come from the workflow. -/
structure Sendable (report : CiFinishReport) : Prop where
  ended : ciRunStatusIsActive report.status = false
  detail_short : report.detail.length ≤ kMaximumCiDetailBytes
  outputs_allowed : ∀ output ∈ report.outputs, OutputAllowed output

/-- The limits of the payload that a report can break. -/
structure FinishFits (report : CiFinishReport) : Prop where
  size : (formatCiFinishReport report).length ≤ kMaximumCiFinishPayloadBytes
  steps_few : report.steps.length ≤ kMaximumCiSteps
  steps_fit : ∀ step ∈ report.steps, StepFits step
  outputs_few : report.outputs.length ≤ kMaximumCiJobs
  notes_short : ∀ output ∈ report.outputs, output.note.length ≤ kMaximumHexTextBytes

theorem fields_clean {parts : List Bytes} (clean : ∀ part ∈ parts, newline ∉ part) :
    newline ∉ [comma].intercalate parts := by
  induction parts with
  | nil => exact List.not_mem_nil
  | cons part rest ih =>
    obtain ⟨own, others⟩ := List.forall_mem_cons.mp clean
    cases rest with
    | nil => simpa [List.intercalate] using own
    | cons next more =>
      have later := ih others
      simp only [List.intercalate, List.intersperse, List.flatten_cons, List.mem_append, not_or] at later ⊢
      exact ⟨own, by decide, later⟩

theorem finishLines_clean {report : CiFinishReport} (sendable : Sendable report) :
    ∀ line ∈ finishLines report, newline ∉ line := by
  intro line member
  simp only [finishLines, List.mem_append, List.mem_cons, List.not_mem_nil, or_false, List.mem_map]
    at member
  rcases member with (rfl | rfl | rfl) | execution | ⟨step, _, rfl⟩ | ⟨output, inside, rfl⟩
  · exact key_clean (by decide) (by cases report.status <;> decide)
  · exact key_clean (by decide) (decimal_avoids (by decide))
  · exact key_clean (by decide) (hexEncode_avoids _).1
  · cases shape : report.execution with
    | none => simp [finishExecutionLines, shape] at execution
    | some own =>
      simp only [finishExecutionLines, shape, List.mem_singleton] at execution
      rw [execution]
      exact key_clean (by decide) (report_clean own)
  · exact key_clean (by decide)
      (fields_clean fun part => finishStepFields_avoid step (.inl rfl) part)
  · exact key_clean (by decide) (fields_clean fun part =>
      finishOutputFields_avoid (sendable.outputs_allowed output inside) (.inl rfl) part)

theorem splitLines_framed {lines : List Bytes} (some_line : lines ≠ [])
    (clean : ∀ line ∈ lines, newline ∉ line) : splitLines (framed lines) = .ok lines := by
  have filled : (framed lines).isEmpty = false := by
    obtain ⟨line, rest, rfl⟩ := List.exists_cons_of_ne_nil some_line
    simp
  rw [splitLines, filled, if_neg (by decide), if_pos (framed_getLast some_line),
    splitOn_framed clean, List.dropLast_concat]

theorem finishField_append (key : String) (value : Bytes) :
    finishField key (ascii key ++ value) = .ok value := by
  rw [finishField, expectField_append]

/-- A report is read back exactly when it fits, and then as it was sent. -/
theorem parse_format_iff {report read : CiFinishReport} (sendable : Sendable report) :
    parseCiFinishReport (formatCiFinishReport report) = .ok read
      ↔ FinishFits report ∧ read = report := by
  have lines := splitLines_framed (by simp [finishLines]) (finishLines_clean sendable)
  have final : finalStatus (ciRunStatusName report.status) = .ok report.status := by
    simp only [finalStatus, ciRunStatusFromName_name, bind_ok, pure_ok]
    exact ⟨(), rejectIf_ok.mpr (by simp [sendable.ended]), trivial⟩
  have epoch : report.started_epoch_seconds.toNat ≤ 2 ^ 64 - 1 :=
    Nat.le_sub_one_of_lt report.started_epoch_seconds.toNat_lt
  have back : UInt64.ofNat report.started_epoch_seconds.toNat = report.started_epoch_seconds :=
    UInt64.ofNat_toNat
  have detail := hexDecode_hexEncode sendable.detail_short
  have header : number "start time" (decimal report.started_epoch_seconds.toNat)
      = .ok report.started_epoch_seconds.toNat := number_decimal epoch
  simp only [parseCiFinishReport, bind_ok, formatCiFinishReport, lines, Except.ok.injEq, exists_eq_left']
  simp only [finishLines, bind_ok, Except.ok.injEq, exists_eq_left', List.cons_append, List.nil_append, finishField_append, final, header,
    detail, back, foldlM_append, absorb_execution, absorb_steps, absorb_outputs sendable.outputs_allowed]
  constructor
  · rintro ⟨_, size, _, rfl, _, ⟨⟨count, fits⟩, rfl⟩, ⟨outputs, notes⟩, rfl⟩
    refine ⟨⟨?_, ?_, fits, ?_, notes⟩, by simp⟩
    · exact Nat.not_lt.mp (rejectIf_ok.mp size)
    · cases steps : report.steps with
      | nil => exact Nat.zero_le _
      | cons => simpa [steps] using count (by simp [steps])
    · cases declared : report.outputs with
      | nil => exact Nat.zero_le _
      | cons => simpa [declared] using outputs (by simp [declared])
  · rintro ⟨fits, rfl⟩
    refine ⟨(), rejectIf_ok.mpr (Nat.not_lt.mpr fits.size), _, rfl, _,
      ⟨⟨fun _ => by simpa using fits.steps_few, fits.steps_fit⟩, rfl⟩,
      ⟨fun _ => by simpa using fits.outputs_few, fits.notes_short⟩, by simp⟩

end CkGit.Ci
