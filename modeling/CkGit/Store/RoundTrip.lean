import CkGit.Base.Spelling
import CkGit.Store.Queue

/-!
# Job and run records round-trip

Which of the records the writing side accepts (enqueueCiJob,
enqueueCiWorkflowJobs, writeCiRunRecord) parseJob and parseRun give back
unchanged, and which texts these parsers accept. The writing side does not
check every bound of the reading side.
-/
namespace CkGit.Store
open CkGit.Base CkGit.Ci Prog

theorem frame_head {line : Bytes} {rest others : List Bytes} (clean : newline ∉ line)
    (read : frame (framed (line :: rest)) = some others) : others.headD [] = line := by
  unfold frame at read
  split at read
  · cases read
    rw [framed_cons, List.splitOn_append_cons_self_of_not_mem clean]
    have more := splitOn_length_pos (framed rest)
    cases pieces : (framed rest).splitOn newline with
    | nil => simp [pieces] at more
    | cons piece others => simp
  · cases read

theorem jobSchema_shape {lines : List Bytes} {version : Nat} (h : jobSchema lines = .ok version) :
    1 ≤ version ∧ version ≤ 6 ∧ lines.headD [] = ascii "schema_version=" ++ decimal version
      ∧ lines.length = if version = 6 then 14 else if version = 5 then 13 else version + 6 := by
  unfold jobSchema at h
  simp only at h
  split at h
  · cases h; rename_i shape; exact ⟨by decide, by decide, shape⟩
  split at h
  · cases h; rename_i shape; exact ⟨by decide, by decide, shape⟩
  split at h
  · cases h; rename_i shape; exact ⟨by decide, by decide, shape⟩
  split at h
  · cases h; rename_i shape; exact ⟨by decide, by decide, shape⟩
  split at h
  · cases h; rename_i shape; exact ⟨by decide, by decide, shape⟩
  split at h
  · cases h; rename_i shape; exact ⟨by decide, by decide, shape⟩
  · cases h

/-- A serialized job that parses has one line for each field. -/
theorem serialized_lines {job read : CiJobRequest} (h : parseJob (serializeJob job) = .ok read) :
    frameLines (serializeJob job) = .ok (jobLines job)
      ∧ jobSchema (jobLines job) = .ok (jobVersion job) := by
  simp only [parseJob, bind_ok] at h
  obtain ⟨lines, framing, version, schema, _⟩ := h
  have framed_ok := orFail_ok.mp framing
  obtain ⟨_, _, first, length⟩ := jobSchema_shape schema
  have tail : jobLines job = (jobLines job).headD [] :: (jobLines job).drop 1 := rfl
  have clean : newline ∉ (jobLines job).headD [] := by
    simp only [jobLines, List.headD_cons, List.cons_append]
    split <;> decide
  have head : lines.headD [] = (jobLines job).headD [] := by
    rw [serializeJob, tail] at framed_ok
    exact frame_head clean framed_ok
  have same : lines.length = (jobLines job).length ∧ version = jobVersion job := by
    rw [head] at first
    unfold jobVersion
    by_cases empty : job.dependency_lock_sha256.isEmpty
    · have five : (jobLines job).headD [] = ascii "schema_version=5" := by simp [jobLines, empty]
      have count : (jobLines job).length = 13 := by simp [jobLines, empty]
      rw [five] at first
      have version_five : version = 5 := by
        rcases (by omega : version = 1 ∨ version = 2 ∨ version = 3 ∨ version = 4 ∨ version = 5
          ∨ version = 6) with rfl | rfl | rfl | rfl | rfl | rfl <;> first | rfl | exact absurd first (by decide)
      subst version_five
      simp [count, length, empty]
    · have six : (jobLines job).headD [] = ascii "schema_version=6" := by simp [jobLines, empty]
      have count : (jobLines job).length = 14 := by simp [jobLines, empty]
      rw [six] at first
      have version_six : version = 6 := by
        rcases (by omega : version = 1 ∨ version = 2 ∨ version = 3 ∨ version = 4 ∨ version = 5
          ∨ version = 6) with rfl | rfl | rfl | rfl | rfl | rfl <;> first | rfl | exact absurd first (by decide)
      subst version_six
      simp [count, length, empty]
  obtain ⟨rfl, _⟩ := frame_lines framed_ok same.1
  rw [← same.2]
  exact ⟨framing, schema⟩

theorem parseAttempt_same {n read : UInt32}
    (h : parseAttempt (ascii "attempt=" ++ decimal n.toNat) = .ok read) : read = n := by
  have bound : n.toNat ≤ 2 ^ 64 - 1 := by
    have := n.toNat_lt
    omega
  simp only [parseAttempt, field_append, bind_ok, pure_ok, Except.ok.injEq, exists_eq_left'] at h
  obtain ⟨value, epoch, _, _, rfl⟩ := h
  have small : n.toNat % 2 ^ 64 = n.toNat := Nat.mod_eq_of_lt (by omega)
  rw [parseEpoch, parseDecimal_decimal bound] at epoch
  simp only [orFail, Except.map, Except.ok.injEq] at epoch
  subst epoch
  simp

theorem lock_same {job : CiJobRequest} {read : Bytes}
    (h : since (jobVersion job) 6 [] (parseLock ((jobLines job).getD 13 [])) = .ok read) :
    read = job.dependency_lock_sha256 := by
  by_cases empty : job.dependency_lock_sha256.isEmpty
  · simp only [jobVersion, empty, if_true, since] at h
    cases h
    exact (List.isEmpty_iff.mp empty).symm
  · have line : (jobLines job).getD 13 []
        = ascii "dependency_lock_sha256=" ++ job.dependency_lock_sha256 := by
      simp [jobLines, empty]
    rw [jobVersion, if_neg empty, since, if_pos (Nat.le_refl 6), line] at h
    simp only [parseLock, field_append, bind_ok, pure_ok, Except.ok.injEq, exists_eq_left'] at h
    obtain ⟨_, _, rfl⟩ := h
    rfl

/-- What the parser gives for a serialized job differs at most in the two lists. -/
theorem serialized_same {job read : CiJobRequest} (h : parseJob (serializeJob job) = .ok read) :
    read = { job with runs_on := read.runs_on, needs := read.needs }
      ∧ parseDependencies (dependencyList job.needs) = .ok read.needs := by
  obtain ⟨framing, schema⟩ := serialized_lines h
  obtain ⟨id, project, ref, commit, client, queued, attempt, labels, policy, parent, name, needs⟩ :=
    jobLines_at job
  have recent : 5 ≤ jobVersion job := by
    unfold jobVersion
    split <;> decide
  have new : ∀ {α : Type} {first : Nat} {old result : α} {value : Except String α}, first ≤ 5 →
      since (jobVersion job) first old value = .ok result → value = .ok result := by
    intro α first old result value early read
    rwa [since, if_pos (early.trans recent)] at read
  simp only [parseJob, framing, schema, bind_ok, pure_ok, Except.ok.injEq, exists_eq_left'] at h
  obtain ⟨_, idRead, _, projectRead, _, refHex, _, refRead, _, commitRead, _, clientRead, _,
    queuedText, _, queuedRead, _, attemptRead, _, labelsRead, _, policyRead, _, parentRead, _,
    nameRead, _, needsRead, _, lockRead, _, _, rfl⟩ := h
  rw [field_at id, Except.ok.injEq] at idRead
  rw [field_at project, Except.ok.injEq] at projectRead
  rw [field_at ref, Except.ok.injEq] at refHex
  rw [field_at commit, Except.ok.injEq] at commitRead
  rw [field_at client, Except.ok.injEq] at clientRead
  rw [field_at queued, Except.ok.injEq] at queuedText
  have parentSame := new (by decide) parentRead
  have nameSame := new (by decide) nameRead
  rw [field_at parent, Except.ok.injEq] at parentSame
  rw [field_at name, Except.ok.injEq] at nameSame
  have attemptSame := parseAttempt_same (attempt ▸ new (by decide) attemptRead)
  have policySame := new (by decide) policyRead
  rw [policy, parseAutoCancel_flag, Except.ok.injEq] at policySame
  have needsSame := new (by decide) needsRead
  rw [field_at needs] at needsSame
  subst queuedText
  rw [parseEpoch_decimal, Except.ok.injEq] at queuedRead
  subst refHex
  have refSame := hexDecode_same (orFail_ok.mp refRead)
  have lockSame : _ = job.dependency_lock_sha256 := lock_same lockRead
  subst idRead projectRead commitRead clientRead queuedRead parentSame nameSame attemptSame
    policySame refSame lockSame
  exact ⟨rfl, needsSame⟩

/-- enqueueCiJob takes the job, or enqueueCiWorkflowJobs takes it in a workflow. -/
def AcceptedJob (job : CiJobRequest) : Prop :=
  validRequest job ∨ ∃ group bytes, validateWorkflowGroup group = .ok ()
    ∧ serializeWorkflowGroup group = .ok bytes ∧ (job = group.parent ∨ job ∈ group.children)

/-- The bounds and the normal form only the reading side has. -/
def JobFits (job : CiJobRequest) : Prop :=
  job.ref.length ≤ 512 ∧ (1 ≤ job.attempt.toNat ∧ job.attempt.toNat ≤ 1000)
    ∧ (∀ label ∈ job.runs_on, isValidCiLabel label) ∧ sortedUnique job.runs_on = job.runs_on
    ∧ job.runs_on.length ≤ kMaximumCiLabels ∧ [] ∉ job.needs

/-- Everything about an accepted job but what JobFits says. -/
structure SoundJob (job : CiJobRequest) : Prop where
  id_valid : isValidCiId job.job_id
  project_valid : isValidProjectName job.project_name
  client_valid : isValidClientId job.client_id
  commit_valid : isValidObjectId job.commit_id
  dependencies_valid : [] ∉ job.needs → validDependencies job

theorem serialized_sound {job read : CiJobRequest} (h : parseJob (serializeJob job) = .ok read)
    (needs : [] ∉ job.needs → read.needs = job.needs) : SoundJob job := by
  obtain ⟨same, _⟩ := serialized_same h
  have readable := (parseJob_readable h).1
  rw [same] at readable
  refine ⟨readable.id_valid, readable.project_valid, readable.client_valid, readable.commit_valid,
    ?_⟩
  intro filled
  have valid := readable.dependencies_valid
  rw [needs filled] at valid
  exact valid

theorem checkChildren_parsed {parent : CiJobRequest} {children : List CiJobRequest}
    {ids names : List Bytes} (h : checkChildren parent children ids names = .ok ()) :
    ∀ child ∈ children, ∃ read, parseJob (serializeJob child) = .ok read := by
  induction children generalizing ids names with
  | nil => simp
  | cons child rest ih =>
    simp only [checkChildren, bind_ok] at h
    obtain ⟨read, parsed, _, _, others⟩ := h
    intro other member
    rcases List.mem_cons.mp member with rfl | later
    · exact ⟨read, parsed⟩
    · exact ih others other later

theorem checkDependencies_same {ids read : List Bytes} {held : Nat}
    (h : checkDependencies ids held = .ok read) : read = ids := by
  induction ids generalizing held read with
  | nil => exact (pure_ok.mp h).symm
  | cons id rest ih =>
    simp only [checkDependencies, bind_ok, pure_ok] at h
    obtain ⟨_, _, _, _, others, later, rfl⟩ := h
    rw [ih later]

theorem dependencies_same {needs read : List Bytes} (filled : [] ∉ needs)
    (clean : ∀ id ∈ needs, comma ∉ id)
    (h : parseDependencies (dependencyList needs) = .ok read) : read = needs := by
  by_cases none : needs = []
  · subst none
    exact (Except.ok.inj h).symm
  · have present : ∀ id ∈ needs, id ≠ [] := fun id member empty => filled (empty ▸ member)
    have nonempty : (dependencyList needs).isEmpty = false := by
      simpa [dependencyList] using joined_ne_nil none present
    rw [parseDependencies, nonempty, dependencyList, splitOn_joined none present clean] at h
    exact checkDependencies_same h

theorem dependencies_none {needs : List Bytes} (filled : [] ∉ needs)
    (h : parseDependencies (dependencyList needs) = .ok []) : needs = [] := by
  by_contra some_need
  have text := joined_ne_nil some_need fun id member empty => filled (empty ▸ member)
  have nonempty : (dependencyList needs).isEmpty = false := by simpa [dependencyList] using text
  simp only [parseDependencies, nonempty, Bool.false_eq_true, if_false] at h
  cases pieces : (dependencyList needs).splitOn comma with
  | nil => exact List.splitOn_ne_nil _ _ pieces
  | cons piece others =>
    simp only [pieces, checkDependencies, bind_ok, pure_ok] at h
    obtain ⟨_, _, _, _, _, _, absurd⟩ := h
    cases absurd

/-- The parts of a successful validateWorkflowGroup. -/
theorem validated {group : WorkflowGroup} (h : validateWorkflowGroup group = .ok ()) :
    (∃ read, parseJob (serializeJob group.parent) = .ok read) ∧ group.parent.parent_run_id = []
      ∧ (∀ child ∈ group.children, ∃ read, parseJob (serializeJob child) = .ok read)
      ∧ ∀ child ∈ group.children, ∀ id ∈ child.needs, id ∈ group.children.map (·.job_id) := by
  simp only [validateWorkflowGroup, bind_ok, failIf, rejectIf_ok] at h
  obtain ⟨read, parsed, _, shape, _, children, _, siblings, _⟩ := h
  refine ⟨⟨read, parsed⟩, ?_, checkChildren_parsed children, ?_⟩
  · simp only [not_or, not_not] at shape
    exact List.isEmpty_iff.mp shape.1
  · intro child member id need
    by_contra missing
    exact siblings ⟨child, member, id, need, missing⟩

theorem AcceptedJob.sound {job : CiJobRequest} (h : AcceptedJob job) : SoundJob job := by
  rcases h with valid | ⟨group, bytes, validGroup, _, member⟩
  · simp only [validRequest, Bool.and_eq_true] at valid
    obtain ⟨⟨⟨⟨⟨⟨dependencies, id⟩, project⟩, client⟩, commit⟩, _⟩, _⟩ := valid
    exact ⟨id, project, client, commit, fun _ => dependencies⟩
  · obtain ⟨⟨read, parsed⟩, top, children, siblings⟩ := validated validGroup
    rcases member with rfl | child
    · apply serialized_sound parsed
      intro filled
      obtain ⟨same, needsRead⟩ := serialized_same parsed
      have valid := (parseJob_readable parsed).1.dependencies_valid
      have parent : read.parent_run_id = [] := by
        rw [same]
        exact top
      simp only [validDependencies, parent, Bool.and_eq_true] at valid
      have none : read.needs = [] := by
        have noNeeds := valid.1.1.2
        simpa using noNeeds
      rw [none] at needsRead ⊢
      exact (dependencies_none filled needsRead).symm
    · obtain ⟨read, parsed⟩ := children job child
      apply serialized_sound parsed
      intro filled
      obtain ⟨same, needsRead⟩ := serialized_same parsed
      have readable := (parseJob_readable parsed).1
      have clean : ∀ id ∈ job.needs, comma ∉ id := by
        intro id need
        obtain ⟨sibling, inside, rfl⟩ := List.mem_map.mp (siblings job child id need)
        obtain ⟨_, siblingParsed⟩ := children sibling inside
        have siblingSame := (serialized_same siblingParsed).1
        have valid := (parseJob_readable siblingParsed).1.id_valid
        rw [siblingSame] at valid
        exact isValidCiId_avoids valid (by decide)
      exact dependencies_same filled clean needsRead

theorem SoundJob.withAttempt {job : CiJobRequest} (h : SoundJob job) (attempt : UInt32) :
    SoundJob { job with attempt } :=
  ⟨h.id_valid, h.project_valid, h.client_valid, h.commit_valid, h.dependencies_valid⟩

theorem SoundJob.readable {job : CiJobRequest} (h : SoundJob job) (fits : JobFits job) :
    ReadableJob job ∧ job.withSortedLabels = job := by
  obtain ⟨ref, attempt, labels, sorted, few, filled⟩ := fits
  refine ⟨⟨h.id_valid, h.project_valid, h.client_valid, h.commit_valid, h.dependencies_valid filled,
    ref, attempt, labels, ?_⟩, ?_⟩
  · rwa [sorted]
  · rw [CiJobRequest.withSortedLabels, sorted]

theorem readable_fits {job : CiJobRequest} (h : ReadableJob job)
    (sorted : job.withSortedLabels = job) : JobFits job := by
  have labels : sortedUnique job.runs_on = job.runs_on := congrArg CiJobRequest.runs_on sorted
  refine ⟨h.ref_short, h.attempt_range, h.labels_valid, labels, labels ▸ h.labels_few, ?_⟩
  intro empty
  exact isValidCiId_nonempty (h.needs.2 [] empty) rfl

/-- The bounds only the reading side has. -/
def RunFits (run : CiRunRecord) : Prop :=
  run.ref.length ≤ 512 ∧ (1 ≤ run.attempt.toNat ∧ run.attempt.toNat ≤ 1000)
    ∧ (run.runner = [] ∨ isValidClientId run.runner) ∧ run.steps.length ≤ kMaximumCiSteps
    ∧ ∀ step ∈ run.steps, step.name.length ≤ 256

theorem written_readable {run : CiRunRecord} {text : Bytes} (h : runRecordText run = .ok text)
    (fits : RunFits run) : ReadableRun run := by
  simp only [runRecordText, bind_ok, failIf, rejectIf_ok, not_not] at h
  obtain ⟨_, ⟨membership, id, project, commit⟩, _, detail, _⟩ := h
  obtain ⟨ref, attempt, runner, few, names⟩ := fits
  exact ⟨id, project, commit, membership, ref, Nat.not_lt.mp detail, runner, attempt, few, names⟩

theorem written_text {run : CiRunRecord} {text : Bytes} (h : runRecordText run = .ok text) :
    text = serializeRun run := by
  simp only [runRecordText, bind_ok, pure_ok] at h
  obtain ⟨_, _, _, _, _, _, rfl⟩ := h
  rfl

/-- A number in decimal digits. -/
def Numeral (n : Nat) (text : Bytes) : Prop := text ≠ [] ∧ text.all isDigit ∧ digitsValue text = n

/-- The items with commas between them; none are the empty text. -/
def Listed (items : List Bytes) (text : Bytes) : Prop :=
  if text.isEmpty then items = [] else text.splitOn comma = items

/-- A key, and what the text behind it says. -/
abbrev Field := String × (Bytes → Prop)

def Shows (line : Bytes) (field : Field) : Prop := ∃ text, line = ascii field.1 ++ text ∧ field.2 text

/-- The lines of a job file of this schema, in their order. -/
def jobFields (version : Nat) (job : CiJobRequest) : List Field :=
  [("schema_version=", (· = decimal version)),
    ("job_id=", (· = job.job_id)),
    ("project=", (· = job.project_name)),
    ("ref_hex=", (· = hexEncode job.ref)),
    ("commit=", (· = job.commit_id)),
    ("client_id=", (· = job.client_id)),
    ("queued_epoch=", Numeral job.queued_epoch_seconds.toNat)]
    ++ (if 2 ≤ version then [("attempt=", Numeral job.attempt.toNat)] else [])
    ++ (if 3 ≤ version then
      [("runs_on=", fun text => ∃ labels, Listed labels text ∧ sortedUnique labels = job.runs_on)] else [])
    ++ (if 4 ≤ version then
      [("auto_cancel=", (· = if job.auto_cancel then ascii "true" else ascii "false"))] else [])
    ++ (if 5 ≤ version then
      [("parent_run_id=", (· = job.parent_run_id)), ("workflow_job=", (· = job.workflow_job)),
        ("needs=", Listed job.needs)] else [])
    ++ (if 6 ≤ version then [("dependency_lock_sha256=", (· = job.dependency_lock_sha256))] else [])

def jobShape (version : Nat) (lines : List Bytes) (job : CiJobRequest) : Prop :=
  List.Forall₂ Shows lines (jobFields version job)

/-- The lines before the steps of a record of this schema, in their order. -/
def runFields (version : Nat) (run : CiRunRecord) : List Field :=
  [("schema_version=", (· = decimal version)),
    ("run_id=", (· = run.run_id)),
    ("project=", (· = run.project_name)),
    ("ref_hex=", (· = hexEncode run.ref)),
    ("commit=", (· = run.commit_id)),
    ("status=", (· = ciRunStatusName run.status)),
    ("started_epoch=", Numeral run.started_epoch_seconds.toNat),
    ("finished_epoch=", Numeral run.finished_epoch_seconds.toNat)]
    ++ (if 2 ≤ version then [("heartbeat_epoch=", Numeral run.heartbeat_epoch_seconds.toNat)] else [])
    ++ (if 3 ≤ version then
      [("runner=", (· = if run.runner.isEmpty then ascii "-" else run.runner)),
        ("attempt=", Numeral run.attempt.toNat)] else [])
    ++ (if 4 ≤ version then
      [("parent_run_id=", (· = run.parent_run_id)), ("workflow_job=", (· = run.workflow_job))] else [])
    ++ [("detail_hex=", (· = hexEncode run.detail))]
    ++ (if 5 ≤ version then
      [("execution=", fun text => ∃ report, parseCiExecutionReport text = .ok report ∧ run.execution = some report)]
      else [])
    ++ [("step_count=", Numeral run.steps.length)]

/-- The line of a step. -/
def ShowsStep (line : Bytes) (step : CiStepResult) : Prop :=
  ∃ exit timed_out truncated, line = ascii "step=" ++ exit ++ comma :: timed_out ++ comma :: truncated
      ++ comma :: hexEncode step.name
    ∧ (∃ n, parseDecimalInt (2 ^ 31) (2 ^ 31 - 1) exit = some n ∧ step.exit_code = .ofInt n)
    ∧ step.timed_out = (timed_out == ascii "1") ∧ step.output_truncated = (truncated == ascii "1")

def runShape (version : Nat) (lines : List Bytes) (run : CiRunRecord) : Prop :=
  ∃ header steps, lines = header ++ steps ∧ List.Forall₂ Shows header (runFields version run)
    ∧ List.Forall₂ ShowsStep steps run.steps

/-- The number of lines before the steps of a record of this schema. -/
def runHeaderLines (version : Nat) : Nat :=
  if version = 5 then 16 else if version = 4 then 15 else if version = 3 then 13 else version + 9

theorem since_default {α : Type} {version first : Nat} {old result : α} {value : Except String α}
    (h : since version first old value = .ok result) :
    (if first ≤ version then result else old) = result := by
  by_cases recent : first ≤ version
  · rw [if_pos recent]
  · rw [since, if_neg recent] at h
    rw [if_neg recent]
    exact Except.ok.inj h

theorem since_late {α : Type} {version first : Nat} {old result : α} {value : Except String α}
    (h : since version first old value = .ok result) (late : first ≤ version) : value = .ok result := by
  rwa [since, if_pos late] at h

theorem field_shows {key : String} {line text : Bytes} (h : field key line = .ok text) : line = ascii key ++ text :=
  expectField_some (orFail_ok.mp h)

theorem parseDecimal_numeral {limit n : Nat} {text : Bytes} (h : parseDecimal limit text = some n) :
    Numeral n text := by
  unfold parseDecimal at h
  split at h
  · rename_i written
    exact ⟨written.1, written.2.1, Option.some.inj h⟩
  · cases h

theorem parseEpoch_numeral {text : Bytes} {n : UInt64} (h : parseEpoch text = .ok n) : Numeral n.toNat text := by
  obtain ⟨value, read, rfl⟩ := map_ok.mp h
  have parsed := orFail_ok.mp read
  have bound := parseDecimal_le parsed
  rw [UInt64.toNat_ofNat', Nat.mod_eq_of_lt (by omega)]
  exact parseDecimal_numeral parsed

theorem attempt_numeral {value : UInt64} (range : ¬ (value < 1 ∨ value > 1000)) :
    (UInt32.ofNat value.toNat).toNat = value.toNat := by
  have thousand : (1000 : UInt64).toNat = 1000 := rfl
  rw [not_or, gt_iff_lt, UInt64.not_lt, UInt64.not_lt, UInt64.le_iff_toNat_le (b := 1000)] at range
  rw [UInt32.toNat_ofNat']
  omega

theorem parseAttempt_shows {line : Bytes} {attempt : UInt32} (h : parseAttempt line = .ok attempt) :
    Shows line ("attempt=", Numeral attempt.toNat) := by
  simp only [parseAttempt, bind_ok, pure_ok, failIf, rejectIf_ok] at h
  obtain ⟨text, read, value, epoch, _, range, rfl⟩ := h
  refine ⟨text, field_shows read, ?_⟩
  show Numeral (UInt32.ofNat value.toNat).toNat text
  rw [attempt_numeral range]
  exact parseEpoch_numeral epoch

theorem parseAutoCancel_shows {line : Bytes} {policy : Bool} (h : parseAutoCancel line = .ok policy) :
    Shows line ("auto_cancel=", (· = if policy then ascii "true" else ascii "false")) := by
  simp only [parseAutoCancel, bind_ok, pure_ok, failIf, rejectIf_ok] at h
  obtain ⟨text, read, _, known, rfl⟩ := h
  refine ⟨text, field_shows read, ?_⟩
  by_cases yes : text = ascii "true"
  · rw [yes]
    rfl
  · have no : text = ascii "false" := by
      by_contra other
      exact known ⟨yes, other⟩
    rw [no]
    decide

theorem parseCiLabelList_listed {text : Bytes} {labels : List Bytes} (h : parseCiLabelList text = some labels) :
    ∃ items, Listed items text ∧ sortedUnique items = labels := by
  unfold parseCiLabelList at h
  split at h
  · rename_i empty
    cases h
    exact ⟨[], by rw [Listed, if_pos empty], rfl⟩
  · rename_i filled
    simp only at h
    split at h
    · cases h
    split at h
    · cases h
    · cases h
      exact ⟨text.splitOn comma, by rw [Listed, if_neg filled], rfl⟩

theorem parseDependencies_listed {text : Bytes} {needs : List Bytes} (h : parseDependencies text = .ok needs) :
    Listed needs text := by
  unfold parseDependencies at h
  unfold Listed
  split at h
  · rename_i empty
    rw [if_pos empty]
    exact (Except.ok.inj h).symm
  · rename_i filled
    rw [if_neg filled]
    exact (checkDependencies_same h).symm

theorem parseLock_shows {line lock : Bytes} (h : parseLock line = .ok lock) :
    Shows line ("dependency_lock_sha256=", (· = lock)) := by
  simp only [parseLock, bind_ok, pure_ok] at h
  obtain ⟨text, read, _, _, rfl⟩ := h
  exact ⟨text, field_shows read, rfl⟩

theorem map_getD_range (lines : List Bytes) (count : Nat) (few : count ≤ lines.length) :
    lines.take count = (List.range count).map (lines.getD · []) := by
  apply List.ext_getElem
  · simp [few]
  · intro index left right
    have inside : index < lines.length := by
      rw [List.length_take] at left
      omega
    simp [List.getD_eq_getElem?_getD, inside]

theorem forall₂_ite {α β : Type} {R : α → β → Prop} {c : Prop} [Decidable c] {first : List α} {second : List β}
    (related : c → List.Forall₂ R first second) :
    List.Forall₂ R (if c then first else []) (if c then second else []) := by
  split
  · next holds => exact related holds
  · exact .nil

/-- An accepted job file has the lines of its schema, and the fields the schema lacks are default. -/
theorem parseJob_documented {content : Bytes} {job : CiJobRequest} (h : parseJob content = .ok job) :
    ∃ lines version, frame content = some lines ∧ 1 ≤ version ∧ version ≤ 6 ∧ jobShape version lines job
      ∧ job.asOf version = job := by
  have normal := (parseJob_readable h).2
  simp only [parseJob, bind_ok, pure_ok] at h
  obtain ⟨lines, framing, version, schema, _, id, _, project, ref, refField, _, refHex, _, commit, _, client,
    _, queuedField, _, queued, attempt, attempts, runs_on, labels, _, policy, _, parent, _, name, _, needs, _, lock,
    _, _, rfl⟩ := h
  have sorted : sortedUnique runs_on = runs_on := congrArg CiJobRequest.runs_on normal
  obtain ⟨low, high, first, length⟩ := jobSchema_shape schema
  refine ⟨lines, version, orFail_ok.mp framing, low, high, ?_, ?_⟩
  · have whole : lines = [lines.getD 0 [], lines.getD 1 [], lines.getD 2 [], lines.getD 3 [], lines.getD 4 [],
        lines.getD 5 [], lines.getD 6 []] ++ (if 2 ≤ version then [lines.getD 7 []] else [])
        ++ (if 3 ≤ version then [lines.getD 8 []] else []) ++ (if 4 ≤ version then [lines.getD 9 []] else [])
        ++ (if 5 ≤ version then [lines.getD 10 [], lines.getD 11 [], lines.getD 12 []] else [])
        ++ (if 6 ≤ version then [lines.getD 13 []] else []) := by
      conv_lhs => rw [← @List.take_length _ lines, map_getD_range lines _ (Nat.le_refl _), length]
      rcases (by omega : version = 1 ∨ version = 2 ∨ version = 3 ∨ version = 4 ∨ version = 5 ∨ version = 6) with
        rfl | rfl | rfl | rfl | rfl | rfl <;> rfl
    have head : lines.getD 0 [] = ascii "schema_version=" ++ decimal version := by
      rw [← first]
      cases lines <;> rfl
    have refSame := (hexDecode_spelled.mp (orFail_ok.mp refHex)).2
    rw [jobShape, whole]
    refine List.rel_append (List.rel_append (List.rel_append (List.rel_append (List.rel_append ?_
      (forall₂_ite fun late => .cons (parseAttempt_shows (since_late attempts late)) .nil))
      (forall₂_ite fun late => .cons ?_ .nil))
      (forall₂_ite fun late => .cons (parseAutoCancel_shows (since_late policy late)) .nil))
      (forall₂_ite fun late => ?_)) (forall₂_ite fun late => .cons (parseLock_shows (since_late lock late)) .nil)
    · exact .cons ⟨_, head, rfl⟩ (.cons ⟨_, field_shows id, rfl⟩ (.cons ⟨_, field_shows project, rfl⟩
        (.cons ⟨_, field_shows refField, refSame⟩ (.cons ⟨_, field_shows commit, rfl⟩
        (.cons ⟨_, field_shows client, rfl⟩ (.cons ⟨_, field_shows queuedField, parseEpoch_numeral queued⟩ .nil))))))
    · obtain ⟨text, read, listed⟩ := bind_ok.mp (since_late labels late)
      exact ⟨text, field_shows read, parseCiLabelList_listed (orFail_ok.mp listed)⟩
    · obtain ⟨text, read, listed⟩ := bind_ok.mp (since_late needs late)
      exact .cons ⟨_, field_shows (since_late parent late), rfl⟩ (.cons ⟨_, field_shows (since_late name late), rfl⟩
        (.cons ⟨text, field_shows read, parseDependencies_listed listed⟩ .nil))
  · simp only [CiJobRequest.asOf, sorted, since_default labels, since_default attempts,
      since_default policy, since_default parent, since_default name, since_default needs,
      since_default lock]

theorem layout_same {layout : Nat × Nat} {count version header : Nat} {message : String}
    (h : (Except.ok layout >>= fun found => failIf (count < found.2) message >>= fun _ =>
      pure (found.1, found.2)) = Except.ok (version, header)) :
    version = layout.1 ∧ header = layout.2 := by
  simp only [bind_ok, pure_ok, Except.ok.injEq, exists_eq_left', Prod.mk.injEq] at h
  obtain ⟨_, _, same, size⟩ := h
  exact ⟨same.symm, size.symm⟩

theorem runSchema_shape {lines : List Bytes} {version header : Nat}
    (h : runSchema lines = .ok (version, header)) :
    1 ≤ version ∧ version ≤ 5 ∧ lines.headD [] = ascii "schema_version=" ++ decimal version
      ∧ header = runHeaderLines version := by
  cases lines with
  | nil => cases h
  | cons first rest =>
    unfold runSchema at h
    simp only at h
    split at h
    · rename_i same; obtain ⟨rfl, rfl⟩ := layout_same h; exact ⟨by decide, by decide, same, rfl⟩
    split at h
    · rename_i same; obtain ⟨rfl, rfl⟩ := layout_same h; exact ⟨by decide, by decide, same, rfl⟩
    split at h
    · rename_i same; obtain ⟨rfl, rfl⟩ := layout_same h; exact ⟨by decide, by decide, same, rfl⟩
    split at h
    · rename_i same; obtain ⟨rfl, rfl⟩ := layout_same h; exact ⟨by decide, by decide, same, rfl⟩
    split at h
    · rename_i same; obtain ⟨rfl, rfl⟩ := layout_same h; exact ⟨by decide, by decide, same, rfl⟩
    · cases h

theorem parseRunner_shows {runner_line attempt_line runner : Bytes} {attempt : UInt32}
    (h : parseRunner runner_line attempt_line = .ok (runner, attempt)) :
    Shows runner_line ("runner=", (· = if runner.isEmpty then ascii "-" else runner))
      ∧ Shows attempt_line ("attempt=", Numeral attempt.toNat) := by
  simp only [parseRunner, bind_ok, pure_ok, failIf, rejectIf_ok, Prod.mk.injEq] at h
  obtain ⟨text, read, _, known, number, field, value, epoch, _, range, rfl, rfl⟩ := h
  refine ⟨⟨text, field_shows read, ?_⟩, number, field_shows field, ?_⟩
  · by_cases none : text = ascii "-"
    · rw [none]
      decide
    · have valid : isValidClientId text = true := by
        by_contra other
        exact known ⟨none, other⟩
      have filled : ¬ text.isEmpty = true := by
        rintro empty
        rw [List.isEmpty_iff.mp empty] at valid
        exact absurd valid (by decide)
      show text = if (if text = ascii "-" then [] else text).isEmpty then ascii "-" else _
      rw [if_neg none, if_neg filled]
  · show Numeral (UInt32.ofNat value.toNat).toNat number
    rw [attempt_numeral range]
    exact parseEpoch_numeral epoch

theorem parseStep_shows {line : Bytes} {step : CiStepResult} (h : parseStep line = .ok step) : ShowsStep line step := by
  simp only [parseStep, bind_ok] at h
  obtain ⟨text, read, h⟩ := h
  split at h
  · rename_i exit timed_out truncated name more pieces
    simp only [bind_ok, pure_ok] at h
    obtain ⟨code, number, decoded, hex, rfl⟩ := h
    have spelled := (hexDecode_spelled.mp (orFail_ok.mp hex)).2
    have joined : text = [comma].intercalate (text.splitOn comma) := (List.intercalate_splitOn comma).symm
    refine ⟨exit, timed_out, truncated, ?_, ⟨code, orFail_ok.mp number, rfl⟩, rfl, rfl⟩
    rw [pieces, List.intercalate_cons_cons, List.intercalate_cons_cons, List.intercalate_cons_cons, spelled] at joined
    rw [field_shows read, joined]
    simp
  · cases h

/-- An accepted record has the lines of its schema, and the fields the schema lacks are default. -/
theorem parseRun_documented {content : Bytes} {run : CiRunRecord} (h : parseRun content = .ok run) :
    ∃ lines version, frame content = some lines ∧ 1 ≤ version ∧ version ≤ 5
      ∧ runShape version lines run ∧ run.asOf version = run := by
  simp only [parseRun, bind_ok, pure_ok, failIf, rejectIf_ok, Prod.exists] at h
  obtain ⟨lines, framing, version, header, schema, _, id, _, project, _, refField, _, refHex, _, commit, _,
    statusField, _, status, _, startedField, _, started, _, finishedField, _, finished, _, heartbeat, _, _, runner, _,
    parent, _, name, _, _, _, detailField, _, detail, _, execution, _, countField, count, counted, _, few, steps,
    stepsRead, _, _, rfl⟩ := h
  obtain ⟨low, high, first, size⟩ := runSchema_shape schema
  simp only [gt_iff_lt, not_or, not_lt, not_not] at few
  have same : count = steps.length := by
    have total := mapM_length stepsRead
    rw [List.length_drop] at total
    omega
  refine ⟨lines, version, orFail_ok.mp framing, low, high,
    ⟨lines.take header, lines.drop header, (List.take_append_drop header lines).symm, ?_,
      (mapM_ok stepsRead).imp fun _ _ => parseStep_shows⟩, ?_⟩
  · have whole : lines.take header = [lines.getD 0 [], lines.getD 1 [], lines.getD 2 [], lines.getD 3 [],
        lines.getD 4 [], lines.getD 5 [], lines.getD 6 [], lines.getD 7 []]
        ++ (if 2 ≤ version then [lines.getD 8 []] else [])
        ++ (if 3 ≤ version then [lines.getD 9 [], lines.getD 10 []] else [])
        ++ (if 4 ≤ version then [lines.getD 11 [], lines.getD 12 []] else [])
        ++ [lines.getD (if 5 ≤ version then header - 3 else header - 2) []]
        ++ (if 5 ≤ version then [lines.getD (header - 2) []] else []) ++ [lines.getD (header - 1) []] := by
      rw [map_getD_range lines header (by omega), size]
      rcases (by omega : version = 1 ∨ version = 2 ∨ version = 3 ∨ version = 4 ∨ version = 5) with
        rfl | rfl | rfl | rfl | rfl <;> rfl
    have head : lines.getD 0 [] = ascii "schema_version=" ++ decimal version := by
      rw [← first]
      cases lines <;> rfl
    have refSame := (hexDecode_spelled.mp (orFail_ok.mp refHex)).2
    have detailSame := (hexDecode_spelled.mp (orFail_ok.mp detail)).2
    have statusSame := ciRunStatusFromName_spelled.mp (orFail_ok.mp status)
    rw [whole]
    refine List.rel_append (List.rel_append (List.rel_append (List.rel_append (List.rel_append (List.rel_append ?_
      (forall₂_ite fun late => .cons ?_ .nil)) (forall₂_ite fun late => ?_)) (forall₂_ite fun late => ?_))
      (.cons ⟨_, field_shows detailField, detailSame⟩ .nil)) (forall₂_ite fun late => .cons ?_ .nil)) (.cons ?_ .nil)
    · exact .cons ⟨_, head, rfl⟩ (.cons ⟨_, field_shows id, rfl⟩ (.cons ⟨_, field_shows project, rfl⟩
        (.cons ⟨_, field_shows refField, refSame⟩ (.cons ⟨_, field_shows commit, rfl⟩
        (.cons ⟨_, field_shows statusField, statusSame⟩
        (.cons ⟨_, field_shows startedField, parseEpoch_numeral started⟩
        (.cons ⟨_, field_shows finishedField, parseEpoch_numeral finished⟩ .nil)))))))
    · obtain ⟨text, read, epoch⟩ := bind_ok.mp (since_late heartbeat late)
      exact ⟨text, field_shows read, parseEpoch_numeral epoch⟩
    · obtain ⟨named, numbered⟩ := parseRunner_shows (since_late runner late)
      exact .cons named (.cons numbered .nil)
    · exact .cons ⟨_, field_shows (since_late parent late), rfl⟩
        (.cons ⟨_, field_shows (since_late name late), rfl⟩ .nil)
    · obtain ⟨text, read, parsed⟩ := bind_ok.mp (since_late execution late)
      obtain ⟨report, known, held⟩ := map_ok.mp parsed
      exact ⟨text, field_shows read, report, known, held.symm⟩
    · exact ⟨_, field_shows countField, same ▸ parseDecimal_numeral (orFail_ok.mp counted)⟩
  · have runnerDefault := since_default runner
    by_cases recent : 3 ≤ version
    · simp only [CiRunRecord.asOf, recent, if_true, since_default heartbeat, since_default parent,
        since_default name, since_default execution]
    · rw [if_neg recent] at runnerDefault
      cases runnerDefault
      simp only [CiRunRecord.asOf, recent, if_false, since_default heartbeat, since_default parent,
        since_default name, since_default execution]

/-- The records that round-trip are exactly those that fit the reading side; what the parsers
accept is documented, and older schemas are read as the same records. -/
theorem records_round_trip_iff (job : CiJobRequest) (run : CiRunRecord) (content : Bytes) :
    (AcceptedJob job → ∀ attempt, let requeued := { job with attempt }
      parseJob (serializeJob requeued) = .ok requeued ↔ JobFits requeued)
    ∧ (∀ text, runRecordText run = .ok text → (parseRun text = .ok run ↔ RunFits run))
    ∧ (parseJob content = .ok job → ∃ lines version, frame content = some lines
        ∧ 1 ≤ version ∧ version ≤ 6 ∧ jobShape version lines job ∧ job.asOf version = job)
    ∧ (parseRun content = .ok run → ∃ lines version, frame content = some lines
        ∧ 1 ≤ version ∧ version ≤ 5 ∧ runShape version lines run ∧ run.asOf version = run)
    ∧ (∀ version, ReadableJob job → 1 ≤ version ∧ version ≤ 5 →
        parseJob (oldJobText version job) = .ok (job.asOf version))
    ∧ (∀ version, ReadableRun run → 1 ≤ version ∧ version ≤ 4 →
        parseRun (oldRunText version run) = .ok (run.asOf version)) := by
  refine ⟨?_, ?_, parseJob_documented, parseRun_documented, fun _ => parseJob_old,
    fun _ => parseRun_old⟩
  · intro accepted attempt
    have sound : SoundJob { job with attempt } := accepted.sound.withAttempt attempt
    constructor
    · intro same
      obtain ⟨readable, sorted⟩ := parseJob_readable same
      exact readable_fits readable sorted
    · intro fits
      obtain ⟨readable, sorted⟩ := sound.readable fits
      have read := parseJob_serializeJob readable
      rwa [sorted] at read
  · intro text written
    rw [written_text written]
    constructor
    · intro same
      have readable := parseRun_readable same
      exact ⟨readable.ref_short, readable.attempt_range, readable.runner_valid, readable.steps_few,
        readable.names_short⟩
    · intro fits
      exact parseRun_serializeRun (written_readable written fits)

def firstHost : Host where
  now := 100
  millis := 0
  token := List.replicate 32 'a'.toUInt8
  order names := names
  order_perm := fun _ => .refl _

def firstJob : CiJobRequest :=
  { job_id := ascii "1", project_name := ascii "p", ref := ascii "refs/heads/main"
    commit_id := List.replicate 40 'a'.toUInt8, client_id := ascii "c" }

def firstRun : CiRunRecord :=
  { run_id := firstJob.job_id, project_name := firstJob.project_name, ref := firstJob.ref
    commit_id := firstJob.commit_id }

theorem records_round_trip_first :
    (AcceptedJob firstJob ∧ parseJob (serializeJob firstJob) = .ok firstJob
      ∧ parseJob (serializeJob { firstJob with attempt := 1001 }) ≠ .ok { firstJob with attempt := 1001 })
    ∧ ∃ text, runRecordText firstRun = .ok text ∧ parseRun text = .ok firstRun := by
  obtain ⟨job_read, run_read, _⟩ := records_round_trip_iff firstJob firstRun []
  have accepted : AcceptedJob firstJob := .inl (by decide +kernel)
  have written : runRecordText firstRun = .ok (serializeRun firstRun) := by decide +kernel
  have fits : JobFits firstJob := by
    unfold JobFits
    decide +kernel
  have run_fits : RunFits firstRun := by
    unfold RunFits
    decide +kernel
  refine ⟨⟨accepted, (job_read accepted 1).mpr fits, fun same => ?_⟩, _, written, (run_read _ written).mpr run_fits⟩
  exact absurd ((job_read accepted 1001).mp same).2.1 (by decide +kernel)

/-- A claim handed back at attempt 1000 puts attempt 1001 into the queue, where no
reader takes it for a job. -/
theorem not_round_trip_abandoned :
    ¬ ∀ (job : CiJobRequest) (attempt : UInt32) (held : Files), AcceptedJob job →
      (∃ before : UInt32, readJobAt held .working (ini job.job_id) = some { job with attempt := before }) →
      ((requeueLocked firstHost job.job_id (ascii "r") false 0).exec held).2.get (.queue .spool (ini job.job_id))
        = some ⟨serializeJob { job with attempt }, 0⟩ →
      parseJob (serializeJob { job with attempt }) = .ok { job with attempt } := by
  intro all
  have read := all firstJob 1001
    ((∅ : Files).put (.queue .working (ini firstJob.job_id)) ⟨serializeJob { firstJob with attempt := 1000 }, 0⟩)
    (.inl (by decide +kernel)) ⟨1000, by decide +kernel⟩ (by decide +kernel)
  exact absurd (parseJob_readable read).1.attempt_range (by decide +kernel)

end CkGit.Store
