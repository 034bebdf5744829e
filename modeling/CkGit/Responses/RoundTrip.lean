import CkGit.Responses.Run
import CkGit.Responses.Jobs
import CkGit.Ci.RunCodec

/-!
The six responses together: a report that is written is read back, and a text
that is accepted is the one written for its report, unless it spells an exit
code or a resource limit in another way.
-/
namespace CkGit.Responses
open CkGit.Base CkGit.Base.Grammar CkGit.Ci

/-- The order and the names a listing promises. -/
structure OrderedStatus (report : CiStatusReport) : Prop where
  distinct : (report.projects.map (·.project_name)).Nodup
  newest : ∀ project ∈ report.projects, (project.runs.map (·.run.run_id)).Pairwise fun newer older => older < newer

/-- Values that differ from all before them have distinct names. -/
theorem nodup_of_fresh {α : Type} {name : α → Bytes} {good : List α → α → Prop}
    (fresh : ∀ seen a, good seen a → (seen.any (name · == name a)) = false) {seen new : List α}
    (each : EachAfter good seen new) (start : (seen.map name).Nodup) : ((seen ++ new).map name).Nodup := by
  induction new generalizing seen with
  | nil => rwa [List.append_nil]
  | cons a rest ih =>
    have apart := List.any_eq_false.mp (fresh seen a each.1)
    have longer : ((seen ++ [a]).map name).Nodup := by
      rw [List.map_append, List.map_singleton]
      refine List.nodup_append.mpr ⟨start, List.nodup_singleton _, ?_⟩
      intro text among other same
      obtain ⟨before, member, rfl⟩ := List.mem_map.mp among
      rw [List.mem_singleton.mp same]
      simpa using apart before member
    have later := ih each.2 longer
    rwa [List.append_assoc] at later

theorem newest_last {seen : List CiRunSummary} {summary : CiRunSummary} (next : newest seen summary = true)
    (order : (seen.map (·.run.run_id)).Pairwise fun newer older => older < newer) :
    ∀ other ∈ seen, summary.run.run_id < other.run.run_id := by
  intro other member
  obtain ⟨front, last, rfl⟩ := List.eq_nil_or_concat seen |>.resolve_left (List.ne_nil_of_mem member)
  rw [List.concat_eq_append] at next order member
  have older : summary.run.run_id < last.run.run_id := by simpa [newest] using next
  rcases List.mem_append.mp member with earlier | same
  · rw [List.map_append, List.pairwise_append] at order
    exact List.lt_trans older (order.2.2 _ (List.mem_map_of_mem earlier) _ List.mem_cons_self)
  · rwa [List.mem_singleton.mp same]

theorem pairwise_of_newest {project_name : Bytes} {seen new : List CiRunSummary}
    (each : EachAfter (GoodRun project_name) seen new)
    (start : (seen.map (·.run.run_id)).Pairwise fun newer older => older < newer) :
    ((seen ++ new).map (·.run.run_id)).Pairwise fun newer older => older < newer := by
  induction new generalizing seen with
  | nil => rwa [List.append_nil]
  | cons summary rest ih =>
    have older := newest_last each.1.2 start
    have longer : ((seen ++ [summary]).map (·.run.run_id)).Pairwise fun newer older => older < newer := by
      rw [List.map_append, List.map_singleton, List.pairwise_append]
      refine ⟨start, List.pairwise_singleton _ _, ?_⟩
      intro text among other same
      obtain ⟨before, member, rfl⟩ := List.mem_map.mp among
      rw [List.mem_singleton.mp same]
      exact older before member
    have later := ih each.2 longer
    rwa [List.append_assoc] at later

theorem GoodStatus.ordered {report : CiStatusReport} (good : GoodStatus report) : OrderedStatus report := by
  refine ⟨nodup_of_fresh (fun _ _ project => project.fresh) good.projects List.nodup_nil, fun project member => ?_⟩
  obtain ⟨_, fine⟩ := good.projects.mem member
  exact pairwise_of_newest fine.runs List.Pairwise.nil

/-- A report as the store produces it. -/
structure ProducedRun (project_name : Bytes) (report : CiRunReport) : Prop where
  owner : report.run.project_name = project_name
  few : report.artifacts.length ≤ kMaximumArtifacts
  distinct : (report.artifacts.map (·.name)).Nodup

/-- The report as it arrives: what the lines say, the placement note in the detail. -/
def received (report : CiRunReport) : CiRunReport :=
  { report with run := sentRun report.run.project_name (foldedDetail report.run) report.run }

theorem foldedDetail_length {run : CiRunRecord} (short : run.detail.length ≤ kMaximumCiDetailBytes) :
    (foldedDetail run).length ≤ kMaximumCiDetailBytes := by
  simp only [foldedDetail]
  split
  · exact short
  · exact List.length_take_le _ _

theorem stripped_folded {run : CiRunRecord}
    (uncut : ciPlacementNote ⟨run.runner, run.attempt⟩ = []
      ∨ (notedDetail run.detail (ciPlacementNote ⟨run.runner, run.attempt⟩)).length ≤ kMaximumCiDetailBytes) :
    strippedCiPlacementDetail (foldedDetail run) ⟨run.runner, run.attempt⟩ = run.detail := by
  unfold strippedCiPlacementDetail foldedDetail
  generalize ciPlacementNote ⟨run.runner, run.attempt⟩ = note at uncut ⊢
  simp only
  by_cases noted : note.isEmpty = true
  · simp only [noted, if_true]
  · rw [Bool.not_eq_true] at noted
    have short : (notedDetail run.detail note).length ≤ kMaximumCiDetailBytes := by
      rcases uncut with rfl | short
      · cases noted
      · exact short
    simp only [noted, Bool.false_eq_true, if_false, List.take_of_length_le short]
    cases stored : run.detail with
    | nil => simp [notedDetail]
    | cons byte rest =>
      have whole : notedDetail (byte :: rest) note = (byte :: rest) ++ (ascii " (" ++ note ++ ascii ")") := rfl
      have other : notedDetail (byte :: rest) note ≠ note := by
        intro same
        have lengths := congrArg List.length same
        rw [whole] at lengths
        simp only [List.length_append, List.length_cons] at lengths
        omega
      have longer : (notedDetail (byte :: rest) note).length > (ascii " (" ++ note ++ ascii ")").length := by
        rw [whole, List.length_append, List.length_cons]
        omega
      have ends : (ascii " (" ++ note ++ ascii ")").isSuffixOf (notedDetail (byte :: rest) note) = true := by
        rw [whole, List.isSuffixOf_iff_suffix]
        exact List.suffix_append _ _
      rw [if_neg other, if_pos (Bool.and_eq_true_iff.mpr ⟨decide_eq_true longer, ends⟩), whole, List.length_append, Nat.add_sub_cancel,
        List.take_left]

theorem written_run_parsed {project_name response : Bytes} {report : CiRunReport}
    (produced : ProducedRun project_name report) (written : formatCiRunControlResponse report = some response) :
    parseCiRunControlResponse response project_name = some (received report) := by
  obtain ⟨writable, whole, short⟩ := (formatCiRun_exact produced.few).mp written
  have fits := writable.run
  simp only [representable, Bool.and_eq_true, decide_eq_true_eq] at fits
  obtain ⟨⟨⟨⟨run_id, commit⟩, ref⟩, detail⟩, steps⟩ := fits
  have lines := reportLines_clean run_id commit writable.artifacts (foldedDetail report.run)
  have collected := @collected_written [] report.run.steps (by simpa using steps) writable.steps
  refine (parseResponse_spelled (spells_runReport project_name)).mpr ⟨_, ⟨⟨?_, run_id, commit, ref,
    foldedDetail_length detail, steps, produced.few, ?_⟩, _, collected, rfl⟩, whole, List.cons_ne_nil _ _, short,
    fun line member => (lines line member).1⟩
  · rw [← produced.owner]
    rfl
  · refine eachAfter_iff.mpr fun front artifact back same => ?_
    have split : report.artifacts = front ++ artifact :: back := same
    have distinct := produced.distinct
    rw [split, List.map_append, List.map_cons] at distinct
    refine ⟨writable.artifacts artifact (by rw [split]; simp), List.any_eq_false.mpr fun other inside => ?_⟩
    have apart := (List.nodup_append.mp distinct).2.2 _ (List.mem_map_of_mem inside) _ List.mem_cons_self
    simpa using apart

/-- An accepted run is written the same way just when its exit codes are spelled plainly. -/
theorem parsed_run_written {project_name response : Bytes} {report : CiRunReport}
    (read : parseCiRunControlResponse response project_name = some report) :
    (report.artifacts.map (·.name)).Nodup
      ∧ (formatCiRunControlResponse report = some response ↔ plainSteps response = true) := by
  obtain ⟨_, ⟨good, steps, collected, rfl⟩, whole, -, short, clean⟩ :=
    (parseResponse_spelled (spells_runReport project_name)).mp read
  have artifacts : ∀ artifact ∈ report.artifacts, representableArtifact artifact = true := fun artifact member =>
    (good.artifacts.mem member).elim fun _ fine => fine.representable
  have unplaced : foldedDetail report.run = report.run.detail := by
    rw [← good.sent]
    rfl
  refine ⟨nodup_of_fresh (fun _ _ artifact => artifact.fresh) good.artifacts List.nodup_nil, ?_⟩
  rw [formatCiRun_exact good.few, unplaced]
  constructor
  · rintro ⟨-, same, -⟩
    rw [same]
    have written := reportLines_clean good.run_id good.commit artifacts report.run.detail
    exact (plainSteps_framed fun line member => (written line member).1).mpr fun line member => (written line member).2
  · intro plainly
    rw [whole] at plainly
    have each := (plainSteps_framed clean).mp plainly
    have lines := collected_plain collected fun line member =>
      each line (by simp only [reportLines, List.mem_cons, List.mem_append]; exact .inr (.inr (.inr (.inl member))))
    refine ⟨⟨?_, ?_, artifacts⟩, by rw [whole, lines]; rfl, short⟩
    · simp [representable, good.run_id, good.commit, good.ref, good.detail, good.steps]
    · exact collected_names collected

/-- The resource limits of an execution response are spelled as they are written. -/
def plainLimits (response : Bytes) : Bool :=
  ((((response.drop 3).take (response.length - 4)).splitOn comma).drop 5).all plain

theorem fromText_found {α : Type} {text : α → Bytes} {values : List α} {field : Bytes} {value : α}
    (found : fromText text values field = some value) : field = text value := by
  have same := List.find?_some found
  exact (beq_iff_eq.mp same).symm

theorem parsed_limits {text : Bytes} {report : CiExecutionReport} (read : parseCiExecutionReport text = .ok report) :
    ∃ memory processes timeout, text.splitOn comma = [ascii "1", report.platform.text, report.architecture.text,
      report.isolation.text, report.network.text, memory, processes, timeout]
      ∧ parseDecimal (2 ^ 64 - 1) memory = some report.memory_bytes.toNat
      ∧ parseDecimal (2 ^ 32 - 1) processes = some report.process_limit.toNat
      ∧ parseDecimal (2 ^ 32 - 1) timeout = some report.timeout_seconds.toNat := by
  unfold parseCiExecutionReport at read
  split at read
  · cases read
  split at read
  · rename_i version platform architecture isolation network memory processes timeout pieces
    simp only at read
    split at read
    · cases read
    · rename_i os machine boundary reach known
      simp only [Option.bind_eq_bind, Option.bind_eq_some_iff, Option.ite_none_right_eq_some, Option.some.injEq,
        Prod.mk.injEq] at known
      obtain ⟨_, first, _, second, _, third, _, fourth, rfl, rfl, rfl, rfl, rfl⟩ := known
      split at read
      · split at read
        · rename_i bytes processCount seconds bytesRead processesRead secondsRead
          obtain rfl := Except.ok.inj read
          have large := parseDecimal_le bytesRead
          have many := parseDecimal_le processesRead
          have long := parseDecimal_le secondsRead
          refine ⟨memory, processes, timeout, ?_, ?_, ?_, ?_⟩
          · rw [pieces, fromText_found first, fromText_found second, fromText_found third, fromText_found fourth]
          · rw [bytesRead, UInt64.toNat_ofNat_of_lt' (Nat.lt_of_le_of_lt large (by decide))]
          · rw [processesRead, UInt32.toNat_ofNat_of_lt' (Nat.lt_of_le_of_lt many (by decide))]
          · rw [secondsRead, UInt32.toNat_ofNat_of_lt' (Nat.lt_of_le_of_lt long (by decide))]
        · cases read
      · cases read
  · cases read

theorem format_splitOn (report : CiExecutionReport) :
    (formatCiExecutionReport report).splitOn comma = reportFields report :=
  List.splitOn_intercalate comma (reportFields_clean report (by decide) (by decide)) (List.cons_ne_nil _ _)

theorem parsed_report_written {text : Bytes} {report : CiExecutionReport} (read : parseCiExecutionReport text = .ok report) :
    formatCiExecutionReport report = text ↔ ((text.splitOn comma).drop 5).all plain = true := by
  obtain ⟨memory, processes, timeout, pieces, bytesRead, processesRead, secondsRead⟩ := parsed_limits read
  constructor
  · rintro rfl
    rw [format_splitOn]
    simp [reportFields, plain_decimal]
  · intro plainly
    rw [pieces] at plainly
    have each : plain memory = true ∧ plain processes = true ∧ plain timeout = true := by simpa using plainly
    obtain ⟨-, rfl⟩ := parseDecimal_plain.mp ⟨bytesRead, each.1⟩
    obtain ⟨-, rfl⟩ := parseDecimal_plain.mp ⟨processesRead, each.2.1⟩
    obtain ⟨-, rfl⟩ := parseDecimal_plain.mp ⟨secondsRead, each.2.2⟩
    calc formatCiExecutionReport report = [comma].intercalate (text.splitOn comma) := by
          rw [pieces]
          rfl
      _ = text := List.intercalate_splitOn comma

/-- The text between "ok " and the newline. -/
theorem execution_body {response : Bytes} (starts : (ascii "ok ").isPrefixOf response = true)
    (ends : response.getLast? = some newline) :
    response = ascii "ok " ++ (response.drop 3).take (response.length - 4) ++ [newline] := by
  obtain ⟨body, rfl⟩ := List.isPrefixOf_iff_prefix.mp starts
  have three : (ascii "ok ").length = 3 := rfl
  cases body using List.reverseRecOn with
  | nil =>
    have last : ((ascii "ok ") ++ []).getLast? ≠ some newline := by decide
    exact absurd ends last
  | append_singleton front last =>
    rw [← List.append_assoc, List.getLast?_concat, Option.some.injEq] at ends
    subst ends
    have dropped : (ascii "ok " ++ (front ++ [newline])).drop 3 = front ++ [newline] := List.drop_left' three
    have size : (ascii "ok " ++ (front ++ [newline])).length - 4 = front.length := by
      rw [List.length_append, List.length_append, three, List.length_singleton]
      omega
    rw [dropped, size, List.take_left, List.append_assoc]

theorem written_execution_parsed (execution : Option CiExecutionReport) :
    parseCiExecutionControlResponse (formatCiExecutionControlResponse execution) = some execution := by
  cases execution with
  | none => decide
  | some report =>
    have text : formatCiExecutionControlResponse (some report)
        = ascii "ok " ++ (formatCiExecutionReport report ++ [newline]) := by
      simp [formatCiExecutionControlResponse]
    have three : (ascii "ok ").length = 3 := rfl
    have body : ((formatCiExecutionControlResponse (some report)).drop 3).take
        ((formatCiExecutionControlResponse (some report)).length - 4) = formatCiExecutionReport report := by
      have size : (ascii "ok " ++ (formatCiExecutionReport report ++ [newline])).length - 4
          = (formatCiExecutionReport report).length := by
        rw [List.length_append, List.length_append, three, List.length_singleton]
        omega
      rw [text, size, List.drop_left' three, List.take_left]
    have reported : formatCiExecutionControlResponse (some report) ≠ ascii "ok -" ++ [newline] := by
      intro same
      have fields := format_splitOn report
      rw [← body, same] at fields
      have lengths := congrArg List.length fields
      revert lengths
      exact (by decide : ¬ (((((ascii "ok -" ++ [newline]).drop 3).take ((ascii "ok -" ++ [newline]).length - 4)).splitOn
        comma).length = 8))
    have starts : (ascii "ok ").isPrefixOf (formatCiExecutionControlResponse (some report)) = true := by
      rw [text]
      exact List.isPrefixOf_iff_prefix.mpr (List.prefix_append _ _)
    have ends : (formatCiExecutionControlResponse (some report)).getLast? = some newline := by
      rw [text, ← List.append_assoc, List.getLast?_concat]
    unfold parseCiExecutionControlResponse
    rw [if_neg reported, if_pos (by simp [starts, ends]), body, parseCiExecutionReport_format]

theorem parsed_execution_written {response : Bytes} {execution : Option CiExecutionReport}
    (read : parseCiExecutionControlResponse response = some execution) :
    formatCiExecutionControlResponse execution = response ↔ plainLimits response = true := by
  unfold parseCiExecutionControlResponse at read
  split at read
  · rename_i blank
    obtain rfl := Option.some.inj read
    rw [blank]
    exact ⟨fun _ => by decide, fun _ => by decide⟩
  · split at read
    · rename_i framing
      simp only [Bool.and_eq_true, beq_iff_eq] at framing
      have whole := execution_body framing.1 framing.2
      split at read
      · rename_i report parsed
        obtain rfl := Option.some.inj read
        rw [plainLimits, ← parsed_report_written parsed]
        constructor
        · intro same
          rw [whole] at same
          simpa [formatCiExecutionControlResponse] using same
        · intro same
          rw [formatCiExecutionControlResponse, Option.elim, same]
          exact whole.symm
      · cases read
    · cases read

/-- What a report says before it is sent is what its reader gets. -/
structure ReadBack (text project_name : Bytes) : Prop where
  status : ∀ report, ProducedStatus report → formatCiStatusControlResponse report = some text →
    parseCiStatusControlResponse text = some report
  run : ∀ report, ProducedRun project_name report → formatCiRunControlResponse report = some text →
    parseCiRunControlResponse text project_name = some (received report)
  jobs : ∀ report, ProducedJobs report → formatCiJobsControlResponse report = some text →
    parseCiJobsControlResponse text = some report
  log : ∀ chunk, formatCiLogControlResponse chunk = some text → parseCiLogControlResponse text chunk.offset = some chunk
  placement : ∀ placement, formatCiPlacementControlResponse placement = some text →
    parseCiPlacementControlResponse text = some placement
  execution : ∀ execution, formatCiExecutionControlResponse execution = text →
    parseCiExecutionControlResponse text = some execution
  stripped : ∀ run : CiRunRecord, ciPlacementNote ⟨run.runner, run.attempt⟩ = []
      ∨ (notedDetail run.detail (ciPlacementNote ⟨run.runner, run.attempt⟩)).length ≤ kMaximumCiDetailBytes →
    strippedCiPlacementDetail (foldedDetail run) ⟨run.runner, run.attempt⟩ = run.detail

/-- An accepted text is the one its formatter writes, in order and without repetition. -/
structure WrittenAs (text : Bytes) (requested_offset : UInt64) : Prop where
  status : ∀ report, parseCiStatusControlResponse text = some report →
    formatCiStatusControlResponse report = some text ∧ OrderedStatus report
  jobs : ∀ report, parseCiJobsControlResponse text = some report →
    formatCiJobsControlResponse report = some text ∧ WritableJobs report
  log : ∀ chunk, parseCiLogControlResponse text requested_offset = some chunk →
    chunk.offset = requested_offset ∧ formatCiLogControlResponse chunk = some text
  placement : ∀ placement, parseCiPlacementControlResponse text = some placement →
    formatCiPlacementControlResponse placement = some text

/-- Every response reads back as it was written, and an accepted text is the one written for
its report; for a run and an execution report just when its numbers are spelled plainly. -/
theorem responses_round_trip_iff (text project_name : Bytes) (requested_offset : UInt64) :
    ReadBack text project_name ∧ WrittenAs text requested_offset
      ∧ (∀ report, parseCiRunControlResponse text project_name = some report →
        (report.artifacts.map (·.name)).Nodup
          ∧ (formatCiRunControlResponse report = some text ↔ plainSteps text = true))
      ∧ ∀ execution, parseCiExecutionControlResponse text = some execution →
        (formatCiExecutionControlResponse execution = text ↔ plainLimits text = true) := by
  refine ⟨?_, ?_, fun _ read => parsed_run_written read, fun _ read => parsed_execution_written read⟩
  · constructor
    case status => exact fun _ produced written => written_status_parsed produced written
    case run => exact fun _ produced written => written_run_parsed produced written
    case jobs => exact fun _ produced written => written_jobs_parsed produced written
    case log => exact fun _ written => log_round_trip.mpr ⟨rfl, written⟩
    case placement => exact fun _ written => placement_round_trip.mp written
    case execution =>
      rintro execution rfl
      exact written_execution_parsed execution
    case stripped => exact fun _ uncut => stripped_folded uncut
  · constructor
    case status =>
      intro report read
      obtain ⟨good, -⟩ := parseCiStatus_exact.mp read
      exact ⟨parsed_status_written read, good.ordered⟩
    case jobs =>
      intro report read
      have written := parsed_jobs_written read
      exact ⟨written, (formatCiJobs_exact.mp written).1⟩
    case log => exact fun _ read => log_round_trip.mp read
    case placement => exact fun _ read => placement_round_trip.mpr read

def sampleRun (code : String) : Bytes :=
  framed [ascii "ok 1700 0", ascii "run a success 1 2 3 1 0123456789012345678901234567890123456789 -", ascii "detail -",
    ascii ("step 0 " ++ code ++ " 0 0 -")]

private theorem sampleRun_accepted :
    (parseCiRunControlResponse (sampleRun "7") (ascii "p")).isSome = true ∧ plainSteps (sampleRun "7") = true
      ∧ (parseCiRunControlResponse (sampleRun "007") (ascii "p")).isSome = true
      ∧ (parseCiRunControlResponse (sampleRun "007") (ascii "p")).bind formatCiRunControlResponse
        ≠ some (sampleRun "007") := by
  decide +kernel

/-- A run whose exit code is spelled plainly is written as it was read. -/
theorem responses_round_trip_seven : ∃ report, parseCiRunControlResponse (sampleRun "7") (ascii "p") = some report
    ∧ formatCiRunControlResponse report = some (sampleRun "7") := by
  obtain ⟨accepted, plainly, -, -⟩ := sampleRun_accepted
  obtain ⟨report, read⟩ := Option.isSome_iff_exists.mp accepted
  have law := (responses_round_trip_iff (sampleRun "7") (ascii "p") 0).2.2.1 report read
  exact ⟨report, read, law.2.mpr plainly⟩

/-- An exit code with leading zeros is accepted and never written. -/
theorem not_responses_round_trip_zeros : ¬ ∀ text project_name report,
    parseCiRunControlResponse text project_name = some report → formatCiRunControlResponse report = some text := by
  intro every
  obtain ⟨-, -, accepted, other⟩ := sampleRun_accepted
  obtain ⟨report, read⟩ := Option.isSome_iff_exists.mp accepted
  rw [read] at other
  exact other (every _ _ report read)

end CkGit.Responses
