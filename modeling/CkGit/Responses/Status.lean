import CkGit.Responses.Lines

/-!
ci-status: the parser accepts the text of a well-formed report and no other, and
the formatter writes it.
-/
namespace CkGit.Responses
open CkGit.Base CkGit.Base.Grammar CkGit.Ci

/-- The two numbers of a header. -/
def headerFields (head : UInt64 × UInt64) : List Bytes := [decimal head.1.toNat, decimal head.2.toNat]

theorem spells_header : Spells (record (ascii "ok") readHeader) fun head used =>
    True ∧ used = [unwords (ascii "ok" :: headerFields head)] := by
  refine spells_exact (by decide) (fun found head _ => ?_) fun head _ field member => ?_
  · obtain ⟨first, second⟩ := head
    match found with
    | [a, b] => simp [readHeader, headerFields, Option.bind_eq_some_iff, parseNumber_spelled]
    | [] | [_] | _ :: _ :: _ :: _ => simp [readHeader, headerFields]
  · simp only [headerFields, List.mem_cons, List.not_mem_nil, or_false] at member
    rcases member with rfl | rfl <;> exact (printed_decimal _).isWord

theorem count_of {n limit : Nat} (few : n ≤ limit) (small : limit < 2 ^ 64) :
    (UInt64.ofNat n).toNat = n := UInt64.toNat_ofNat_of_lt' (Nat.lt_of_le_of_lt few small)

/-- What a run line says of a run. -/
def bareRun (project_name : Bytes) (run : CiRunRecord) : CiRunRecord :=
  { run_id := run.run_id, project_name, ref := run.ref, commit_id := run.commit_id, status := run.status
    started_epoch_seconds := run.started_epoch_seconds, finished_epoch_seconds := run.finished_epoch_seconds
    heartbeat_epoch_seconds := run.heartbeat_epoch_seconds }

/-- A run as the client accepts it in a listing. -/
structure GoodSummary (project_name : Bytes) (summary : CiRunSummary) : Prop where
  bare : bareRun project_name summary.run = summary.run
  run_id : isValidCiId summary.run.run_id = true
  commit : isValidObjectId summary.run.commit_id = true
  ref : summary.run.ref.length ≤ kMaximumRefBytes
  steps : summary.completed_steps ≤ kMaximumCiSteps

theorem runFields_printed {run : CiRunRecord} (run_id : isValidCiId run.run_id = true)
    (commit : isValidObjectId run.commit_id = true) (completed : Nat) :
    ∀ field ∈ runFields run completed, Printed field := by
  intro field member
  simp only [runFields, List.mem_cons, List.not_mem_nil, or_false] at member
  rcases member with rfl | rfl | rfl | rfl | rfl | rfl | rfl | rfl
  · exact printed_id run_id
  · exact printed_status _
  · exact printed_decimal _
  · exact printed_decimal _
  · exact printed_decimal _
  · exact printed_decimal _
  · exact printed_object commit
  · exact printed_encodeText _

/-- A run line is read exactly when its fields are those of a good run. -/
theorem readRun_spelled {project_name : Bytes} {found : List Bytes} {summary : CiRunSummary} :
    readRun project_name found = some summary
      ↔ GoodSummary project_name summary ∧ found = runFields summary.run summary.completed_steps := by
  constructor
  · intro read
    unfold readRun at read
    split at read
    · simp only [Option.bind_eq_bind, Option.bind_eq_some_iff, Option.bind_none, Option.ite_none_left_eq_some,
        parseNumber_spelled, ciRunStatusFromName_spelled, decodeText_spelled, pure, Option.some.injEq] at read
      obtain ⟨status, rfl, id, started, rfl, finished, rfl, heartbeat, rfl, completed, rfl, few, commit, ref, ⟨short, rfl⟩,
        rfl⟩ := read
      exact ⟨⟨rfl, by simpa using id, by simpa using commit, short, Nat.not_lt.mp few⟩, rfl⟩
    · cases read
  · rintro ⟨good, rfl⟩
    obtain ⟨run, completed⟩ := summary
    have number := count_of good.steps (by decide)
    simp only [runFields, readRun, Option.bind_eq_bind, Option.bind_eq_some_iff, Option.bind_none,
      Option.ite_none_left_eq_some, parseNumber_spelled, ciRunStatusFromName_spelled, decodeText_spelled, pure,
      Option.some.injEq]
    refine ⟨run.status, rfl, by simp [good.run_id], _, rfl, _, rfl, _, rfl, .ofNat completed, by rw [number], ?_,
      by simp [good.commit], run.ref, ⟨good.ref, rfl⟩, ?_⟩
    · rw [number]
      exact Nat.not_lt.mpr good.steps
    · rw [number]
      exact congrArg (CiRunSummary.mk · completed) good.bare

theorem spells_run (project_name : Bytes) : Spells (record (ascii "run") (readRun project_name)) fun summary used =>
    GoodSummary project_name summary ∧ used = [runLine summary.run summary.completed_steps] :=
  spells_exact (by decide) (fun _ _ _ => readRun_spelled)
    fun _ good field member => (runFields_printed good.run_id good.commit _ field member).isWord

/-- A run line has no newline and only printable characters. -/
theorem runLine_clean {run : CiRunRecord} (run_id : isValidCiId run.run_id = true)
    (commit : isValidObjectId run.commit_id = true) (completed : Nat) : CleanLine (runLine run completed) :=
  record_clean (by decide) (runFields_printed run_id commit completed)

def runLines (summary : CiRunSummary) : List Bytes := [runLine summary.run summary.completed_steps]

/-- A good run with a smaller id than the one before it. -/
def GoodRun (project_name : Bytes) (seen : List CiRunSummary) (summary : CiRunSummary) : Prop :=
  GoodSummary project_name summary ∧ newest seen summary = true

theorem spells_nextRun (project_name : Bytes) (seen : List CiRunSummary) :
    Spells (nextRun project_name seen) fun summary used =>
      GoodRun project_name seen summary ∧ used = runLines summary := by
  refine (spells_bind (spells_run project_name) fun summary =>
    spells_checked (spells_pure summary)).congr fun summary used => ?_
  constructor
  · rintro ⟨_, _, _, ⟨good, rfl⟩, ⟨order, rfl, rfl⟩, rfl⟩
    exact ⟨⟨good, order⟩, rfl⟩
  · rintro ⟨⟨good, order⟩, rfl⟩
    exact ⟨summary, _, [], ⟨good, rfl⟩, ⟨order, rfl, rfl⟩, rfl⟩

/-- A run is appended exactly when it can be represented. -/
theorem appends_run (summary : CiRunSummary) :
    Appends (appendRun · summary) (representable summary.run = true ∧ True) (runLines summary) :=
  (appends_append _).guard _

/-- A project line with a valid name. -/
structure GoodLine (line : Bytes × Bool × UInt64) : Prop where
  named : isValidProjectName line.1 = true

def lineFields (line : Bytes × Bool × UInt64) : List Bytes :=
  [line.1, ascii (if line.2.1 then "enabled" else "disabled"), decimal line.2.2.toNat]

theorem lineFields_printed {line : Bytes × Bool × UInt64} (good : GoodLine line) :
    ∀ field ∈ lineFields line, Printed field := by
  intro field member
  simp only [lineFields, List.mem_cons, List.not_mem_nil, or_false] at member
  rcases member with rfl | rfl | rfl
  · exact printed_project good.named
  · exact printed_enabled _
  · exact printed_decimal _

theorem spells_projectLine : Spells (record (ascii "project") readProject) fun line used =>
    GoodLine line ∧ used = [unwords (ascii "project" :: lineFields line)] := by
  refine spells_exact (by decide) (fun found line _ => ?_)
    fun line good field member => (lineFields_printed good field member).isWord
  obtain ⟨project_name, enabled, count⟩ := line
  constructor
  · intro read
    unfold readProject at read
    split at read
    · simp only [Option.bind_eq_bind, Option.bind_eq_some_iff, Option.bind_none, Option.ite_none_left_eq_some,
        parseNumber_spelled, readEnabled_spelled, pure, Option.some.injEq] at read
      obtain ⟨named, _, rfl, _, rfl, same⟩ := read
      obtain ⟨rfl, rfl, rfl⟩ := by simpa using same
      exact ⟨⟨by simpa using named⟩, rfl⟩
    · cases read
  · rintro ⟨good, rfl⟩
    simp only [lineFields, readProject, Option.bind_eq_bind, Option.bind_eq_some_iff, Option.bind_none,
      Option.ite_none_left_eq_some, parseNumber_spelled, readEnabled_spelled, pure, Option.some.injEq]
    exact ⟨by simp [good.named], enabled, rfl, count, rfl, rfl⟩

/-- A project with its runs, each on its line. -/
def projectLines (project : CiProjectStatus) : List Bytes :=
  unwords (ascii "project" :: projectFields project) :: project.runs.flatMap runLines

/-- A project that was not seen before, with good runs in their order. -/
structure GoodProject (seen : List CiProjectStatus) (project : CiProjectStatus) : Prop where
  named : isValidProjectName project.project_name = true
  fresh : (seen.any (·.project_name == project.project_name)) = false
  few : project.runs.length ≤ kMaximumControlCiRuns
  runs : EachAfter (GoodRun project.project_name) [] project.runs

theorem spells_nextProject (seen : List CiProjectStatus) : Spells (nextProject seen) fun project used =>
    GoodProject seen project ∧ used = projectLines project := by
  refine (spells_bind spells_projectLine fun line => spells_checked (spells_checked
    (spells_map (spells_collect (spells_nextRun line.1) line.2.2.toNat []) _))).congr fun project used => ?_
  constructor
  · rintro ⟨⟨project_name, enabled, count⟩, _, back, ⟨good, rfl⟩, ⟨fresh, few, runs, ⟨new, rfl, size, lines⟩, rfl⟩, rfl⟩
    obtain ⟨each, rfl⟩ := collected_exact.mp lines
    refine ⟨⟨good.named, by simpa using fresh, ?_, by simpa using each⟩, ?_⟩
    · change runs.length ≤ _
      rw [size]
      exact of_decide_eq_true few
    · rw [projectLines, projectFields, lineFields, ← size]
      rfl
  · rintro ⟨good, rfl⟩
    have size := count_of good.few (by decide)
    refine ⟨(project.project_name, project.ci_enabled, .ofNat project.runs.length), _, project.runs.flatMap runLines,
      ⟨⟨good.named⟩, rfl⟩, ⟨by simp [good.fresh], ?_, project.runs, ⟨project.runs, rfl, size.symm,
      collected_exact.mpr ⟨good.runs, rfl⟩⟩, rfl⟩, ?_⟩
    · rw [size]
      exact decide_eq_true good.few
    · rw [projectLines, projectFields, lineFields, size]
      rfl

theorem projectLines_clean {seen : List CiProjectStatus} {project : CiProjectStatus} (good : GoodProject seen project) :
    ∀ line ∈ projectLines project, CleanLine line := by
  intro line member
  rcases List.mem_cons.mp member with rfl | inside
  · refine record_clean (by decide) fun field member => ?_
    have size := count_of good.few (by decide)
    have head : GoodLine (project.project_name, project.ci_enabled, .ofNat project.runs.length) := ⟨good.named⟩
    have printed := lineFields_printed head
    rw [lineFields, size] at printed
    exact printed field member
  · obtain ⟨summary, among, same⟩ := List.mem_flatMap.mp inside
    obtain rfl := List.mem_singleton.mp same
    obtain ⟨_, fine, -⟩ := good.runs.mem among
    exact runLine_clean fine.run_id fine.commit _

/-- The header and the lines of every project. -/
def statusLines (report : CiStatusReport) : List Bytes :=
  header [decimal report.server_epoch_seconds.toNat, decimal report.projects.length]
    :: report.projects.flatMap projectLines

/-- A report as the client accepts it. -/
structure GoodStatus (report : CiStatusReport) : Prop where
  few : report.projects.length ≤ kMaximumProjects
  projects : EachAfter GoodProject [] report.projects

/-- The grammar of a status answer spells exactly the good reports. -/
theorem spells_status : Spells statusGrammar fun report used =>
    GoodStatus report ∧ used = statusLines report := by
  refine (spells_bind spells_header fun head => spells_checked
    (spells_map (spells_collect spells_nextProject head.2.toNat []) _)).congr fun report used => ?_
  constructor
  · rintro ⟨⟨server, count⟩, _, back, ⟨-, rfl⟩, ⟨few, projects, ⟨new, rfl, size, lines⟩, rfl⟩, rfl⟩
    obtain ⟨each, rfl⟩ := collected_exact.mp lines
    refine ⟨⟨?_, by simpa using each⟩, ?_⟩
    · change projects.length ≤ _
      rw [size]
      exact of_decide_eq_true few
    · rw [statusLines, header, headerFields, ← size]
      rfl
  · rintro ⟨good, rfl⟩
    have size := count_of good.few (by decide)
    refine ⟨(report.server_epoch_seconds, .ofNat report.projects.length), _, report.projects.flatMap projectLines,
      ⟨trivial, rfl⟩, ⟨?_, report.projects, ⟨report.projects, rfl, size.symm,
      collected_exact.mpr ⟨good.projects, rfl⟩⟩, rfl⟩, ?_⟩
    · rw [size]
      exact decide_eq_true good.few
    · rw [statusLines, header, headerFields, size]
      rfl

theorem header_clean {fields : List Bytes} (each : ∀ field ∈ fields, Printed field) : CleanLine (header fields) :=
  record_clean (by decide) each

theorem numbers_clean (first second : Nat) : CleanLine (header [decimal first, decimal second]) := by
  refine header_clean fun field member => ?_
  simp only [List.mem_cons, List.not_mem_nil, or_false] at member
  rcases member with rfl | rfl <;> exact printed_decimal _

/-- An answer is accepted exactly when it is the text of a good report. -/
theorem parseCiStatus_exact {response : Bytes} {report : CiStatusReport} :
    parseCiStatusControlResponse response = some report ↔ GoodStatus report ∧ response = framed (statusLines report)
      ∧ response.length ≤ kMaximumControlResponseBytes := by
  refine parseResponse_exact spells_status (fun _ => List.cons_ne_nil _ _) fun report good line member => ?_
  rcases List.mem_cons.mp member with rfl | inside
  · exact numbers_clean _ _
  · obtain ⟨project, among, within⟩ := List.mem_flatMap.mp inside
    obtain ⟨_, fine⟩ := good.projects.mem among
    exact projectLines_clean fine line within

def writableProject (project : CiProjectStatus) : Bool :=
  isValidProjectName project.project_name && project.runs.length ≤ kMaximumControlCiRuns

/-- A valid project with few runs that can all be represented. -/
def WritableProject (project : CiProjectStatus) : Prop :=
  writableProject project = true ∧ True ∧ ∀ summary ∈ project.runs, representable summary.run = true ∧ True

theorem appends_project (project : CiProjectStatus) :
    Appends (appendProject · project) (WritableProject project) (projectLines project) :=
  ((appends_append _).then (appends_foldlM project.runs appends_run)).guard (writableProject project)

theorem decimal_short {n : Nat} (small : n < 2 ^ 64) : (decimal n).length ≤ 20 :=
  decimal_length_le (by decide) (Nat.lt_trans small (by decide))

theorem numbers_short {first second : Nat} (one : first < 2 ^ 64) (two : second < 2 ^ 64) :
    (framed [header [decimal first, decimal second]]).length ≤ kMaximumControlResponseBytes := by
  have front := decimal_short one
  have back := decimal_short two
  have whole : (framed [header [decimal first, decimal second]]).length
      = (decimal first).length + (decimal second).length + 5 := by
    simp [header, unwords, ascii]
    omega
  rw [whole, kMaximumControlResponseBytes]
  omega

/-- An answer is written exactly when its projects are writable and it fits. -/
theorem formatCiStatus_exact {report : CiStatusReport} (few : report.projects.length ≤ kMaximumProjects)
    {response : Bytes} : formatCiStatusControlResponse report = some response
      ↔ (∀ project ∈ report.projects, WritableProject project) ∧ response = framed (statusLines report)
        ∧ response.length ≤ kMaximumControlResponseBytes := by
  have start := numbers_short report.server_epoch_seconds.toNat_lt (Nat.lt_of_le_of_lt few (by decide))
  have lines := appends_foldlM report.projects appends_project _ response start
  rw [← framed_append] at lines
  exact lines

/-- What was parsed is written as it was. -/
theorem parsed_status_written {response : Bytes} {report : CiStatusReport}
    (read : parseCiStatusControlResponse response = some report) : formatCiStatusControlResponse report = some response := by
  obtain ⟨good, whole, short⟩ := parseCiStatus_exact.mp read
  refine (formatCiStatus_exact good.few).mpr ⟨fun project member => ?_, whole, short⟩
  obtain ⟨_, fine⟩ := good.projects.mem member
  refine ⟨by simp [writableProject, fine.named, fine.few], trivial, fun summary among => ⟨?_, trivial⟩⟩
  obtain ⟨_, written, -⟩ := fine.runs.mem among
  have empty := congrArg (fun run : CiRunRecord => (run.detail, run.steps)) written.bare
  obtain ⟨detail, steps⟩ := Prod.mk.inj empty
  have short := written.ref
  simp [representable, written.run_id, written.commit, short, ← detail, ← steps, bareRun]

/-- A report as the store produces it: each project once, its runs the newest first. -/
structure ProducedStatus (report : CiStatusReport) : Prop where
  few : report.projects.length ≤ kMaximumProjects
  distinct : (report.projects.map (·.project_name)).Nodup
  newest : ∀ project ∈ report.projects, (project.runs.map (·.run.run_id)).Pairwise fun newer older => older < newer
  stored : ∀ project ∈ report.projects, ∀ summary ∈ project.runs, ∃ run : CiRunRecord,
    summary = summarizeCiRun run ∧ run.project_name = project.project_name ∧ run.steps.length ≤ kMaximumCiSteps

theorem newest_of {seen : List CiRunSummary} {summary : CiRunSummary}
    (older : ∀ other ∈ seen, summary.run.run_id < other.run.run_id) : newest seen summary = true := by
  unfold newest
  split
  · rename_i last found
    exact decide_eq_true (older last (List.mem_of_getLast? found))
  · rfl

theorem ProducedStatus.runs {report : CiStatusReport} (produced : ProducedStatus report) {project : CiProjectStatus}
    (member : project ∈ report.projects) (written : WritableProject project) :
    EachAfter (GoodRun project.project_name) [] project.runs := by
  refine eachAfter_iff.mpr fun front summary back same => ?_
  have among : summary ∈ project.runs := by rw [same]; simp
  have order := produced.newest project member
  rw [same, List.map_append, List.pairwise_append] at order
  obtain ⟨run, rfl, owner, steps⟩ := produced.stored project member summary among
  have fits := (written.2.2 _ among).1
  simp only [representable, Bool.and_eq_true, decide_eq_true_eq] at fits
  refine ⟨⟨?_, fits.1.1.1.1, fits.1.1.1.2, fits.1.1.2, steps⟩, newest_of fun other inside => ?_⟩
  · rw [← owner]
    rfl
  · exact order.2.2 other.run.run_id (List.mem_map_of_mem inside) _ List.mem_cons_self

/-- What was written for a produced report is parsed as it was. -/
theorem written_status_parsed {response : Bytes} {report : CiStatusReport} (produced : ProducedStatus report)
    (written : formatCiStatusControlResponse report = some response) :
    parseCiStatusControlResponse response = some report := by
  obtain ⟨each, whole, short⟩ := (formatCiStatus_exact produced.few).mp written
  refine parseCiStatus_exact.mpr ⟨⟨produced.few, eachAfter_iff.mpr fun front project back same => ?_⟩, whole, short⟩
  have member : project ∈ report.projects := by rw [same]; simp
  have fits := (each project member).1
  simp only [writableProject, Bool.and_eq_true, decide_eq_true_eq] at fits
  have distinct := produced.distinct
  rw [same, List.map_append, List.map_cons] at distinct
  refine ⟨fits.1, ?_, fits.2, produced.runs member (each project member)⟩
  refine List.any_eq_false.mpr fun other inside => ?_
  have apart := (List.nodup_append.mp distinct).2.2 _ (List.mem_map_of_mem inside) _ List.mem_cons_self
  simpa using apart

end CkGit.Responses
