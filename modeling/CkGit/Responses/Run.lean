import CkGit.Responses.Status

/-!
ci-run: the report that is read back is the one written, with the placement note
in its detail. The exit codes of the steps are the only fields an accepted text
may spell in another way.
-/
namespace CkGit.Responses
open CkGit.Base CkGit.Base.Grammar CkGit.Ci

def stepFieldsAs (index : Nat) (code : Bytes) (step : CiStepResult) : List Bytes :=
  [decimal index, code, flag step.timed_out, flag step.output_truncated, encodeText step.name]

def stepLineAs (index : Nat) (code : Bytes) (step : CiStepResult) : Bytes :=
  unwords (ascii "step" :: stepFieldsAs index code step)

structure GoodStep (seen : List CiStepResult) (step : CiStepResult) : Prop where
  index : seen.length < 2 ^ 64
  name : step.name.length ≤ kMaximumStepNameBytes

/-- A step line with any accepted spelling of its exit code. -/
def AcceptedStep (seen : List CiStepResult) (step : CiStepResult) (used : List Bytes) : Prop :=
  GoodStep seen step ∧ ∃ code, parseExitCode code = some step.exit_code ∧ IsWord code
    ∧ used = [stepLineAs seen.length code step]

theorem readStep_spelled {index : Nat} {found : List Bytes} {step : CiStepResult} :
    readStep index found = some step ↔ index < 2 ^ 64 ∧ step.name.length ≤ kMaximumStepNameBytes
      ∧ ∃ code, parseExitCode code = some step.exit_code ∧ found = stepFieldsAs index code step := by
  constructor
  · intro read
    unfold readStep at read
    split at read
    · rename_i number code timed_out output_truncated name
      simp only [Option.bind_eq_bind, Option.bind_eq_some_iff, Option.bind_none, Option.ite_none_left_eq_some,
        parseNumber_spelled, parseFlag_spelled, decodeText_spelled, pure, Option.some.injEq] at read
      obtain ⟨n, rfl, same, exit, parsed, timed, rfl, truncated, rfl, text, ⟨short, rfl⟩, rfl⟩ := read
      have index_eq : n.toNat = index := of_not_not same
      refine ⟨index_eq ▸ n.toNat_lt, short, code, parsed, ?_⟩
      rw [← index_eq]
      rfl
    · cases read
  · rintro ⟨small, short, code, parsed, rfl⟩
    have number : (UInt64.ofNat index).toNat = index := UInt64.toNat_ofNat_of_lt' small
    simp only [stepFieldsAs, readStep, Option.bind_eq_bind, Option.bind_eq_some_iff, Option.bind_none,
      Option.ite_none_left_eq_some, parseNumber_spelled, parseFlag_spelled, decodeText_spelled, pure, Option.some.injEq]
    exact ⟨.ofNat index, by rw [number], not_not_intro number, step.exit_code, parsed, step.timed_out, rfl,
      step.output_truncated, rfl, step.name, ⟨short, rfl⟩, rfl⟩

theorem stepFieldsAs_words {index : Nat} {code : Bytes} (word : IsWord code) (step : CiStepResult) :
    ∀ field ∈ stepFieldsAs index code step, IsWord field := by
  intro field member
  simp only [stepFieldsAs, List.mem_cons, List.not_mem_nil, or_false] at member
  rcases member with rfl | rfl | rfl | rfl | rfl
  · exact (printed_decimal _).isWord
  · exact word
  · exact (printed_flag _).isWord
  · exact (printed_flag _).isWord
  · exact (printed_encodeText _).isWord

theorem spells_nextStep (seen : List CiStepResult) : Spells (nextStep seen) (AcceptedStep seen) := by
  refine (spells_record (by decide)).congr fun step used => ?_
  constructor
  · rintro ⟨fields, read, words, rfl⟩
    obtain ⟨index, name, code, parsed, rfl⟩ := readStep_spelled.mp read
    exact ⟨⟨index, name⟩, code, parsed, words code (by simp [stepFieldsAs]), rfl⟩
  · rintro ⟨good, code, parsed, word, rfl⟩
    exact ⟨_, readStep_spelled.mpr ⟨good.index, good.name, code, parsed, rfl⟩, stepFieldsAs_words word step, rfl⟩

/-- The exit code on a step line is spelled as it is written. -/
def plainStep (line : Bytes) : Bool :=
  match words (ascii "step") line with
  | some (_ :: code :: _) => plainInt code
  | _ => true

def plainSteps (response : Bytes) : Bool := (response.splitOn newline).all plainStep

theorem plainStep_line {index : Nat} {code : Bytes} (word : IsWord code) (step : CiStepResult) :
    plainStep (stepLineAs index code step) = plainInt code := by
  have found : words (ascii "step") (stepLineAs index code step) = some (stepFieldsAs index code step) :=
    (words_eq (by decide)).mpr ⟨rfl, stepFieldsAs_words word step⟩
  rw [plainStep, found]
  rfl

/-- A line of another record has no exit code. -/
theorem plainStep_other {keyword : Bytes} {fields : List Bytes} (other : keyword ≠ ascii "step")
    (clean : space ∉ keyword) (printed : ∀ field ∈ fields, Printed field) :
    plainStep (unwords (keyword :: fields)) = true := by
  have pieces : (unwords (keyword :: fields)).splitOn space = keyword :: fields := by
    refine List.splitOn_intercalate space (fun piece member => ?_) (List.cons_ne_nil _ _)
    rcases List.mem_cons.mp member with rfl | inside
    · exact clean
    · exact (printed piece inside).isWord.2
  have none : words (ascii "step") (unwords (keyword :: fields)) = none := by
    unfold words
    rw [pieces]
    exact if_neg fun h => other h.1
  rw [plainStep, none]

theorem plainSteps_framed {lines : List Bytes} (clean : ∀ line ∈ lines, CleanLine line) :
    plainSteps (framed lines) = true ↔ ∀ line ∈ lines, plainStep line = true := by
  rw [plainSteps, splitOn_framed fun line member => (clean line member).newline_notMem, List.all_append]
  have last : ([[]] : List Bytes).all plainStep = true := by decide
  rw [last, Bool.and_true, List.all_eq_true]

def stepLines (step : CiStepResult × Nat) : List Bytes := [unwords (ascii "step" :: stepFields step.2 step.1)]

theorem stepFields_as (index : Nat) (step : CiStepResult) :
    stepFields index step = stepFieldsAs index (decimalInt step.exit_code.toInt) step := rfl

/-- Steps with plain exit codes have the lines the formatter gives them. -/
theorem collected_plain {seen steps : List CiStepResult} {used : List Bytes}
    (collected : Collected AcceptedStep seen steps used) (plainly : ∀ line ∈ used, plainStep line = true) :
    used = (steps.zipIdx seen.length).flatMap stepLines := by
  induction steps generalizing seen used with
  | nil => exact collected
  | cons step rest ih =>
    obtain ⟨_, back, ⟨-, code, parsed, word, rfl⟩, later, rfl⟩ := collected
    have first := plainly _ (List.mem_append_left _ List.mem_cons_self)
    rw [plainStep_line word] at first
    obtain rfl := parseExitCode_spelled.mp ⟨parsed, first⟩
    have others := ih later fun line member => plainly line (List.mem_append_right _ member)
    rw [List.length_append] at others
    rw [others, List.zipIdx_cons, List.flatMap_cons]
    rfl

theorem collected_names {seen steps : List CiStepResult} {used : List Bytes}
    (collected : Collected AcceptedStep seen steps used) :
    ∀ step ∈ steps, step.name.length ≤ kMaximumStepNameBytes := by
  induction steps generalizing seen used with
  | nil => nofun
  | cons first rest ih =>
    obtain ⟨_, _, ⟨good, -⟩, later, -⟩ := collected
    intro step member
    rcases List.mem_cons.mp member with rfl | inside
    · exact good.name
    · exact ih later step inside

theorem collected_written {seen steps : List CiStepResult} (few : seen.length + steps.length ≤ kMaximumCiSteps)
    (short : ∀ step ∈ steps, step.name.length ≤ kMaximumStepNameBytes) :
    Collected AcceptedStep seen steps ((steps.zipIdx seen.length).flatMap stepLines) := by
  induction steps generalizing seen with
  | nil => rfl
  | cons step rest ih =>
    rw [List.length_cons] at few
    have fewer : (seen ++ [step]).length + rest.length ≤ kMaximumCiSteps := by
      rw [List.length_append, List.length_singleton]
      omega
    have later := ih fewer fun other member => short other (List.mem_cons_of_mem _ member)
    rw [List.length_append] at later
    have code := parseExitCode_spelled.mpr (rfl : decimalInt step.exit_code.toInt = decimalInt step.exit_code.toInt)
    rw [kMaximumCiSteps] at few
    rw [List.zipIdx_cons, List.flatMap_cons]
    exact ⟨_, _, ⟨⟨by omega, short step List.mem_cons_self⟩, _, code.1, (printed_decimalInt _).isWord, rfl⟩, later, rfl⟩

theorem stepLines_printed (step : CiStepResult × Nat) : ∀ field ∈ stepFields step.2 step.1, Printed field := by
  intro field member
  simp only [stepFields, List.mem_cons, List.not_mem_nil, or_false] at member
  rcases member with rfl | rfl | rfl | rfl | rfl
  · exact printed_decimal _
  · exact printed_decimalInt _
  · exact printed_flag _
  · exact printed_flag _
  · exact printed_encodeText _

theorem appends_step (step : CiStepResult × Nat) :
    Appends (appendStep · step) (decide (step.1.name.length ≤ kMaximumStepNameBytes) = true ∧ True) (stepLines step) := by
  have line := (appends_append (unwords (ascii "step" :: stepFields step.2 step.1))).guard
    (decide (step.1.name.length ≤ kMaximumStepNameBytes))
  simp only [decide_eq_true_eq] at line ⊢
  exact line

structure GoodArtifact (seen : List CiArtifactRecord) (artifact : CiArtifactRecord) : Prop where
  representable : representableArtifact artifact = true
  fresh : (seen.any (·.name == artifact.name)) = false

def artifactLines (artifact : CiArtifactRecord) : List Bytes := [unwords (ascii "artifact" :: artifactFields artifact)]

theorem artifactFields_printed {artifact : CiArtifactRecord} (good : representableArtifact artifact = true) :
    ∀ field ∈ artifactFields artifact, Printed field := by
  simp only [representableArtifact, Bool.and_eq_true] at good
  intro field member
  simp only [artifactFields, List.mem_cons, List.not_mem_nil, or_false] at member
  rcases member with rfl | rfl | rfl | rfl | rfl | rfl
  · exact printed_artifact good.1.1
  · exact printed_decimal _
  · exact printed_digest good.1.2
  · exact printed_decimal _
  · exact printed_decimal _
  · exact printed_encodeText _

theorem spells_artifact : Spells (record (ascii "artifact") readArtifact) fun artifact used =>
    representableArtifact artifact = true ∧ used = artifactLines artifact := by
  refine spells_exact (by decide) (fun found artifact _ => ?_)
    fun artifact good field member => (artifactFields_printed good field member).isWord
  constructor
  · intro read
    unfold readArtifact at read
    split at read
    · simp only [Option.bind_eq_bind, Option.bind_eq_some_iff, Option.bind_none, Option.ite_none_left_eq_some,
        parseNumber_spelled, readSha256_spelled, decodeText_spelled, pure, Option.some.injEq] at read
      obtain ⟨named, bytes, rfl, digest, ⟨valid, rfl⟩, created, rfl, expires, rfl, note, ⟨short, rfl⟩, rfl⟩ := read
      refine ⟨?_, rfl⟩
      simp only [representableArtifact, valid, Bool.and_true, Bool.and_eq_true, decide_eq_true_eq]
      exact ⟨by simpa using named, short⟩
    · cases read
  · rintro ⟨good, rfl⟩
    simp only [representableArtifact, Bool.and_eq_true, decide_eq_true_eq] at good
    simp only [artifactFields, readArtifact, Option.bind_eq_bind, Option.bind_eq_some_iff, Option.bind_none,
      Option.ite_none_left_eq_some, parseNumber_spelled, readSha256_spelled, decodeText_spelled, pure, Option.some.injEq]
    exact ⟨by simp [good.1.1], artifact.bytes, rfl, artifact.sha256, ⟨good.1.2, rfl⟩, artifact.created_epoch_seconds, rfl,
      artifact.expires_epoch_seconds, rfl, artifact.note, ⟨good.2, rfl⟩, rfl⟩

theorem spells_nextArtifact (seen : List CiArtifactRecord) : Spells (nextArtifact seen) fun artifact used =>
    GoodArtifact seen artifact ∧ used = artifactLines artifact := by
  refine (spells_bind spells_artifact fun artifact =>
    spells_checked (spells_pure artifact)).congr fun artifact used => ?_
  constructor
  · rintro ⟨_, _, _, ⟨good, rfl⟩, ⟨fresh, rfl, rfl⟩, rfl⟩
    exact ⟨⟨good, by simpa using fresh⟩, rfl⟩
  · rintro ⟨good, rfl⟩
    exact ⟨artifact, _, [], ⟨good.representable, rfl⟩, ⟨by simp [good.fresh], rfl, rfl⟩, rfl⟩

theorem appends_artifact (artifact : CiArtifactRecord) :
    Appends (appendArtifact · artifact) (representableArtifact artifact = true ∧ True) (artifactLines artifact) :=
  (appends_append _).guard _

def detailLine (detail : Bytes) : Bytes := unwords [ascii "detail", encodeText detail]

theorem spells_detail : Spells (record (ascii "detail") readDetail) fun detail used =>
    detail.length ≤ kMaximumCiDetailBytes ∧ used = [detailLine detail] := by
  have fields : ∀ detail : Bytes, ∀ field ∈ [encodeText detail], IsWord field := by
    intro detail field member
    rw [List.mem_singleton.mp member]
    exact (printed_encodeText detail).isWord
  refine spells_exact (by decide) (fun found detail _ => ?_) fun detail _ => fields detail
  match found with
  | [field] => simp [readDetail, decodeText_spelled]
  | [] | _ :: _ :: _ => simp [readDetail]

/-- The lines of a report with this detail, its step lines given. -/
def reportLines (report : CiRunReport) (detail : Bytes) (steps : List Bytes) : List Bytes :=
  header [decimal report.server_epoch_seconds.toNat, decimal report.artifacts.length]
    :: runLine report.run report.run.steps.length :: detailLine detail
    :: (steps ++ report.artifacts.flatMap artifactLines)

/-- A run as its own lines say it. -/
def sentRun (project_name detail : Bytes) (run : CiRunRecord) : CiRunRecord :=
  { bareRun project_name run with detail, steps := run.steps }

structure GoodRunReport (project_name : Bytes) (report : CiRunReport) : Prop where
  sent : sentRun project_name report.run.detail report.run = report.run
  run_id : isValidCiId report.run.run_id = true
  commit : isValidObjectId report.run.commit_id = true
  ref : report.run.ref.length ≤ kMaximumRefBytes
  detail : report.run.detail.length ≤ kMaximumCiDetailBytes
  steps : report.run.steps.length ≤ kMaximumCiSteps
  few : report.artifacts.length ≤ kMaximumArtifacts
  artifacts : EachAfter GoodArtifact [] report.artifacts

theorem spells_runReport (project_name : Bytes) : Spells (runGrammar project_name) fun report used =>
    GoodRunReport project_name report ∧ ∃ steps, Collected AcceptedStep [] report.run.steps steps
      ∧ used = reportLines report report.run.detail steps := by
  refine (spells_bind spells_header fun head => spells_checked (spells_bind (spells_run project_name) fun summary =>
    spells_bind spells_detail fun detail => spells_bind
      (spells_collect spells_nextStep summary.completed_steps []) fun steps =>
      spells_map (spells_collect spells_nextArtifact head.2.toNat []) _)).congr fun report used => ?_
  constructor
  · rintro ⟨⟨server, count⟩, _, _, ⟨-, rfl⟩, ⟨few, summary, _, _, ⟨good, rfl⟩, ⟨detail, _, _, ⟨short, rfl⟩,
      ⟨steps, stepLines, _, ⟨_, rfl, stepCount, collected⟩, ⟨artifacts, ⟨_, rfl, size, lines⟩, rfl⟩, rfl⟩, rfl⟩,
      rfl⟩, rfl⟩
    obtain ⟨each, rfl⟩ := collected_exact.mp lines
    have counted : steps.length = summary.completed_steps := stepCount
    refine ⟨⟨?_, good.run_id, good.commit, good.ref, short, ?_, ?_, by simpa using each⟩, stepLines, collected, ?_⟩
    · have bare := good.bare
      simp only [sentRun]
      rw [← bare]
      rfl
    · change steps.length ≤ _
      rw [counted]
      exact good.steps
    · change artifacts.length ≤ _
      rw [size]
      exact of_decide_eq_true few
    · simp only [reportLines, ← counted, ← size, headerFields, header]
      rfl
  · rintro ⟨good, steps, collected, rfl⟩
    have size := count_of good.few (by decide)
    refine ⟨(report.server_epoch_seconds, .ofNat report.artifacts.length), _, _, ⟨trivial, rfl⟩, ⟨?_,
      ⟨bareRun project_name report.run, report.run.steps.length⟩, _, _, ⟨⟨rfl, good.run_id, good.commit, good.ref,
      good.steps⟩, rfl⟩, ⟨report.run.detail, _, _, ⟨good.detail, rfl⟩, ⟨report.run.steps, steps, _,
      ⟨report.run.steps, rfl, rfl, collected⟩, ⟨report.artifacts, ⟨report.artifacts, rfl, size.symm,
      collected_exact.mpr ⟨good.artifacts, rfl⟩⟩, ?_⟩, rfl⟩, rfl⟩, rfl⟩, ?_⟩
    · rw [size]
      exact decide_eq_true good.few
    · exact congrArg (CiRunReport.mk _ · _) good.sent.symm
    · simp only [reportLines, size, headerFields, header]
      rfl

theorem reportLines_clean {report : CiRunReport} (run_id : isValidCiId report.run.run_id = true)
    (commit : isValidObjectId report.run.commit_id = true)
    (artifacts : ∀ artifact ∈ report.artifacts, representableArtifact artifact = true) (detail : Bytes) :
    ∀ line ∈ reportLines report detail (report.run.steps.zipIdx.flatMap stepLines),
      CleanLine line ∧ plainStep line = true := by
  have numbers : ∀ field ∈ [decimal report.server_epoch_seconds.toNat, decimal report.artifacts.length],
      Printed field := by
    intro field member
    simp only [List.mem_cons, List.not_mem_nil, or_false] at member
    rcases member with rfl | rfl <;> exact printed_decimal _
  have text : ∀ field ∈ [encodeText detail], Printed field := by
    intro field member
    rw [List.mem_singleton.mp member]
    exact printed_encodeText detail
  intro line member
  simp only [reportLines, List.mem_cons, List.mem_append, List.mem_flatMap] at member
  rcases member with rfl | rfl | rfl | ⟨step, -, among⟩ | ⟨artifact, inside, among⟩
  · exact ⟨header_clean numbers, plainStep_other (by decide) (by decide) numbers⟩
  · exact ⟨runLine_clean run_id commit _,
      plainStep_other (by decide) (by decide) (runFields_printed run_id commit _)⟩
  · exact ⟨record_clean (by decide) text, plainStep_other (by decide) (by decide) text⟩
  · obtain rfl := List.mem_singleton.mp among
    refine ⟨record_clean (by decide) (stepLines_printed step), ?_⟩
    rw [stepFields_as]
    exact (plainStep_line (printed_decimalInt _).isWord step.1).trans (plainInt_decimalInt _)
  · obtain rfl := List.mem_singleton.mp among
    have printed := artifactFields_printed (artifacts artifact inside)
    exact ⟨record_clean (by decide) printed, plainStep_other (by decide) (by decide) printed⟩

structure WritableRun (report : CiRunReport) : Prop where
  run : representable report.run = true
  steps : ∀ step ∈ report.run.steps, step.name.length ≤ kMaximumStepNameBytes
  artifacts : ∀ artifact ∈ report.artifacts, representableArtifact artifact = true

theorem formatCiRun_exact {report : CiRunReport} (few : report.artifacts.length ≤ kMaximumArtifacts) {response : Bytes} :
    formatCiRunControlResponse report = some response ↔ WritableRun report
      ∧ response = framed (reportLines report (foldedDetail report.run) (report.run.steps.zipIdx.flatMap stepLines))
      ∧ response.length ≤ kMaximumControlResponseBytes := by
  have start := numbers_short report.server_epoch_seconds.toNat_lt (Nat.lt_of_le_of_lt few (by decide))
  have lines := ((appends_run ⟨report.run, report.run.steps.length⟩).then
    ((appends_append (detailLine (foldedDetail report.run))).then
      ((appends_foldlM report.run.steps.zipIdx appends_step).then
        (appends_foldlM report.artifacts appends_artifact)))) _ response start
  rw [← framed_append] at lines
  have same : formatCiRunControlResponse report = some response ↔ _ := lines
  rw [same]
  have numbered : (∀ step ∈ report.run.steps.zipIdx, decide (step.1.name.length ≤ kMaximumStepNameBytes) = true ∧ True)
      ↔ ∀ step ∈ report.run.steps, step.name.length ≤ kMaximumStepNameBytes := by
    have names := List.zipIdx_map_fst 0 report.run.steps
    constructor
    · intro each step member
      rw [← names] at member
      obtain ⟨numbered, inside, rfl⟩ := List.mem_map.mp member
      exact of_decide_eq_true (each numbered inside).1
    · intro each numbered inside
      have member : numbered.1 ∈ report.run.steps := by
        rw [← names]
        exact List.mem_map_of_mem inside
      exact ⟨decide_eq_true (each numbered.1 member), trivial⟩
  constructor
  · rintro ⟨⟨⟨run, -⟩, -, steps, artifacts⟩, whole, short⟩
    exact ⟨⟨run, numbered.mp steps, fun artifact member => (artifacts artifact member).1⟩, whole, short⟩
  · rintro ⟨writable, whole, short⟩
    exact ⟨⟨⟨writable.run, trivial⟩, trivial, numbered.mpr writable.steps,
      fun artifact member => ⟨writable.artifacts artifact member, trivial⟩⟩, whole, short⟩

end CkGit.Responses
