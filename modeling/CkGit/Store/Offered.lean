import CkGit.Store.GivenUp
import CkGit.Store.Retiring

/-!
What claimCiJob hands out: the first job of the queue's order that this runner
may have. The jobs cancelled on the way never make an earlier job eligible.
-/
namespace CkGit.Store
open CkGit.Base CkGit.Ci Prog
open CkGit.Workflow (queuedRecord)

variable {host : Host} {options : CiClaimOptions} {busy pending : List RefHolder} {s t u : Files} {name : Bytes}
  {job : CiJobRequest}

/-- A needed run of the job's own workflow has succeeded. -/
def Met (s : Files) (job : CiJobRequest) (dependency : Bytes) : Prop :=
  ∃ result, loadCiRun s job.project_name dependency = some result ∧ result.parent_run_id = job.parent_run_id
    ∧ result.commit_id = job.commit_id ∧ result.ref = job.ref ∧ result.status = .success

/-- The runner may have the job that waits under this name. -/
structure Eligible (host : Host) (options : CiClaimOptions) (busy pending : List RefHolder) (s : Files) (name : Bytes)
    (job : CiJobRequest) : Prop where
  queued : readJobAt s .spool name = some job
  unlocked : job.dependency_lock_sha256 = []
  uncancelled : job.parent_run_id ≠ [] → isCiCancelRequested s job.project_name job.job_id = false
  needs : ∀ dependency ∈ job.needs, Met s job dependency
  labelled : ciRunnerMatches options.runner options.labels job.runs_on = true
  protocol : job.parent_run_id ≠ [] → 2 ≤ options.protocol_version
  turn : options.one_per_ref = true → outOfTurn busy pending job = false
  aged : tooYoung host s options name = none

/-- No job that waits under its own name is eligible. -/
def Refused (host : Host) (options : CiClaimOptions) (busy pending : List RefHolder) (s : Files) (name : Bytes) :
    Prop :=
  ∀ job : CiJobRequest, name = ini job.job_id → ¬ Eligible host options busy pending s name job

theorem ensureRunDir_keeps {project id : Bytes} {r : Unit} (run : (ensureRunDir host project id).Returns s r t) :
    (∀ path, path ≠ .run project id .directory → t.get path = s.get path)
      ∧ ∀ path, (s.get path).isSome → (t.get path).isSome := by
  simp only [ensureRunDir, writeFile, returns_bind, returns_gets, returns_whenever, returns_modify] at run
  obtain ⟨present, _, ⟨rfl, rfl⟩, ⟨_, rfl⟩ | ⟨_, rfl⟩⟩ := run
  · refine ⟨fun path other => Files.get_put_ne other, ?_⟩
    intro path held
    rw [Files.get_put]
    split
    · rfl
    · exact held
  · exact ⟨fun _ _ => rfl, fun _ held => held⟩

theorem settledRecord_readable {detail : Bytes} {terminal : CiRunStatus} (readable : ReadableJob job) :
    RunFits (settledRecord host s job detail terminal) := by
  have base : RunFits ((loadCiRun s job.project_name job.job_id).getD (queuedRecord job)) := by
    cases loaded : loadCiRun s job.project_name job.job_id with
    | none => exact queuedRecord_fits readable.ref_short readable.attempt_range
    | some record =>
      have found := loaded_readable loaded
      exact ⟨found.ref_short, found.attempt_range, found.runner_valid, found.steps_few, found.names_short⟩
  obtain ⟨_, _, runner, steps, names⟩ := base
  exact ⟨readable.ref_short, readable.attempt_range, runner, steps, names⟩

/-- The files of a job that cancelQueuedJob writes. -/
def Touched (job : CiJobRequest) (path : Path) : Prop :=
  path = .run job.project_name job.job_id .directory ∨ path = .run job.project_name job.job_id .record
    ∨ path = .queue .spool (ini job.job_id)

/-- A job has ended in this way, and nothing else has changed. -/
structure Cancelled (job : CiJobRequest) (terminal : CiRunStatus) (s t : Files) : Prop where
  same : ∀ path, ¬ Touched job path → t.get path = s.get path
  directory : ∀ project id, hasRunDir s project id = true → hasRunDir t project id = true
  gone : t.get (.queue .spool (ini job.job_id)) = none
  ended : ∃ record, loadCiRun t job.project_name job.job_id = some record ∧ record.status = terminal

theorem cancelQueuedJob_cancelled {detail : Bytes} {terminal : CiRunStatus} {r : Unit} (readable : ReadableJob job)
    (run : (cancelQueuedJob host job detail terminal).Returns s r t) : Cancelled job terminal s t := by
  simp only [cancelQueuedJob, prepareCiRunDirectory, writeCiRunRecord, writeFile, unlink, returns_bind, returns_gets,
    returns_ofExcept, returns_modify] at run
  obtain ⟨record, _, ⟨rfl, rfl⟩, _, v, ⟨_, _, ⟨_, rfl⟩, _, _, ⟨_, rfl⟩, made⟩, _, w, ⟨text, _, ⟨written, rfl⟩, _, x,
    again, rfl⟩, rfl⟩ := run
  obtain ⟨first, present⟩ := ensureRunDir_keeps made
  change (ensureRunDir host job.project_name job.job_id).Returns v _ x at again
  obtain ⟨second, still⟩ := ensureRunDir_keeps again
  change Cancelled job terminal s ((x.put (.run job.project_name job.job_id .record) ⟨text, host.millis⟩).remove
    (.queue .spool (ini job.job_id)))
  refine ⟨?_, ?_, Files.get_remove_self, ?_⟩
  · intro path other
    rw [Files.get_remove_ne fun same => other (.inr (.inr same)),
      Files.get_put_ne fun same => other (.inr (.inl same)),
      second path fun same => other (.inl same), first path fun same => other (.inl same)]
  · intro project id held
    unfold hasRunDir
    rw [Files.get_remove_ne (by intro same; cases same), Files.get_put_ne (by intro same; cases same)]
    exact still _ (present _ held)
  · have read : loadCiRun (x.put (.run job.project_name job.job_id .record) ⟨text, host.millis⟩) job.project_name
        job.job_id = some (settledRecord host s job detail terminal) :=
      written_loads written (settledRecord_readable readable)
    refine ⟨settledRecord host s job detail terminal, ?_, rfl⟩
    rw [← read]
    exact loadCiRun_same (Files.get_remove_ne (by intro same; cases same))

theorem Cancelled.record {terminal : CiRunStatus} (h : Cancelled job terminal s t) {project id : Bytes}
    (other : ¬ (project = job.project_name ∧ id = job.job_id)) : loadCiRun t project id = loadCiRun s project id := by
  apply loadCiRun_same
  apply h.same
  intro touched
  rcases touched with same | same | same
  · cases same
  · injection same with projects ids
    exact other ⟨projects, ids⟩
  · cases same

theorem Cancelled.marked {terminal : CiRunStatus} (h : Cancelled job terminal s t) (project id : Bytes) :
    marked t project id .cancel 64 = marked s project id .cancel 64 := by
  unfold CkGit.Store.marked
  apply congrArg
  apply Files.readCapped_congr
  apply h.same
  intro touched
  rcases touched with same | same | same <;> cases same

/-- A cancelled run of another job stays cancelled. -/
theorem Cancelled.requested {terminal : CiRunStatus} (h : Cancelled job terminal s t) {project id : Bytes}
    (other : id ≠ job.job_id) (was : isCiCancelRequested s project id = true) :
    isCiCancelRequested t project id = true := by
  unfold isCiCancelRequested at was ⊢
  simp only [Bool.and_eq_true] at was ⊢
  refine ⟨was.1, ?_⟩
  have requested := was.2
  cases here : hasRunDir s project id with
  | false =>
    rw [here] at requested
    simp [Except.toOption, pure, Except.pure] at requested
  | true =>
    rw [here] at requested
    rw [h.directory project id here, h.marked project id, h.record fun same => other same.2]
    cases own : CkGit.Store.marked s project id .cancel 64 with
    | error message =>
      rw [own] at requested
      simp [Except.toOption, bind, Except.bind] at requested
    | ok found =>
      rw [own] at requested
      cases found with
      | true => rfl
      | false =>
        cases loaded : loadCiRun s project id with
        | none =>
          rw [loaded] at requested
          simp [Except.toOption, bind, Except.bind, pure, Except.pure] at requested
        | some record =>
          rw [loaded] at requested
          simp only [if_true, bind, Except.bind, Bool.false_eq_true, if_false] at requested ⊢
          split at requested
          · simp [Except.toOption, pure, Except.pure] at requested
          · rename_i present
            simp only [not_or, not_not] at present
            rw [if_neg (by simp [present.1, h.directory _ _ present.2]), h.marked]
            exact requested

/-- An unsuccessful end makes no other job eligible. -/
theorem Cancelled.refused {ended : CiJobRequest} {terminal : CiRunStatus} (h : Cancelled ended terminal s t)
    (unsuccessful : terminal ≠ .success) (refused : Refused host options busy pending s name) :
    Refused host options busy pending t name := by
  intro job named eligible
  have different : job.job_id ≠ ended.job_id := by
    intro same
    obtain ⟨file, held, _⟩ := Files.readAs_some.mp eligible.queued
    rw [named, same, h.gone] at held
    cases held
  have waits : t.get (.queue .spool name) = s.get (.queue .spool name) := by
    apply h.same
    intro touched
    rcases touched with same | same | same
    · cases same
    · cases same
    · injection same with _ names
      rw [named] at names
      exact different (ini_injective names)
  apply refused job named
  refine { eligible with queued := ?_, uncancelled := ?_, needs := ?_, aged := ?_ }
  · rw [← eligible.queued]
    exact (Files.readAs_congr waits).symm
  · intro child
    cases requested : isCiCancelRequested s job.project_name job.job_id with
    | false => rfl
    | true => exact absurd (eligible.uncancelled child) (by simp [h.requested different requested])
  · intro dependency needed
    obtain ⟨result, loaded, same⟩ := eligible.needs dependency needed
    refine ⟨result, ?_, same⟩
    rw [← loaded]
    symm
    apply h.record
    rintro ⟨project, id⟩
    obtain ⟨record, found, status⟩ := h.ended
    rw [project, id, found] at loaded
    cases loaded
    exact unsuccessful (status.symm.trans same.2.2.2)
  · rw [← eligible.aged]
    unfold tooYoung
    rw [waits]

theorem met_of_needOf {dependency : Bytes} (h : needOf s job dependency = .met) : Met s job dependency := by
  unfold needOf at h
  split at h
  · cases h
  · rename_i result loaded
    split at h
    · cases h
    · rename_i same
      split at h
      · cases h
      · split at h
        · cases h
        · rename_i success
          simp only [not_or, not_not] at same success
          exact ⟨result, loaded, same.1, same.2.1, same.2.2, success⟩

theorem needOf_of_met {dependency : Bytes} (h : Met s job dependency) : needOf s job dependency = .met := by
  obtain ⟨result, loaded, parent, commit, ref, success⟩ := h
  simp [needOf, loaded, parent, commit, ref, success, ciRunStatusIsActive]

theorem refused_of_read (read : readJobAt s .spool name = some job)
    (ineligible : ¬ Eligible host options busy pending s name job) : Refused host options busy pending s name := by
  intro other _ eligible
  have same := eligible.queued
  rw [read] at same
  cases same
  exact ineligible eligible

/-- What is decided of a name, and that the names refused before it stay refused. -/
structure Considered (host : Host) (options : CiClaimOptions) (busy pending : List RefHolder) (name : Bytes)
    (choice : Choice) (s t : Files) : Prop where
  stays : ∀ other, Refused host options busy pending s other → Refused host options busy pending t other
  taken : choice = .take → t = s ∧ ∀ job, readJobAt s .spool name = some job →
    Eligible host options busy pending s name job
  passed : choice ≠ .take → Refused host options busy pending t name

theorem considered_cancelled {detail : Bytes} {terminal : CiRunStatus} {r : Unit}
    (read : readJobAt s .spool name = some job)
    (unsuccessful : terminal ≠ .success) (run : (cancelQueuedJob host job detail terminal).Returns s r t) :
    Considered host options busy pending name .skip s t := by
  obtain ⟨file, held, _, was⟩ := Files.readAs_some.mp read
  have cancelled := cancelQueuedJob_cancelled (parseJob_readable was).1 run
  refine ⟨fun other => cancelled.refused unsuccessful, (fun take => by cases take), ?_⟩
  intro _ other named eligible
  obtain ⟨file, there, short, parsed⟩ := Files.readAs_some.mp eligible.queued
  by_cases own : name = ini job.job_id
  · rw [own, cancelled.gone] at there
    cases there
  · have waits : t.get (.queue .spool name) = s.get (.queue .spool name) := by
      apply cancelled.same
      intro touched
      rcases touched with same | same | same
      · cases same
      · cases same
      · injection same with _ names
        exact own names
    rw [waits, held] at there
    cases there
    rw [was] at parsed
    cases parsed
    exact own named

theorem consider_considered {choice : Choice} (read : readJobAt s .spool name = some job)
    (run : (consider host options busy pending name job).Returns s choice t) :
    Considered host options busy pending name choice s t := by
  simp only [consider, returns_bind, returns_gets] at run
  obtain ⟨_, _, ⟨rfl, rfl⟩, run⟩ := run
  have skipped : ¬ Eligible host options busy pending s name job →
      Considered host options busy pending name .skip s s := fun ineligible =>
    ⟨fun _ refused => refused, (fun take => by cases take), fun _ => refused_of_read read ineligible⟩
  split at run
  · obtain ⟨r, u, cancelled, final⟩ := returns_bind.mp run
    obtain ⟨rfl, rfl⟩ := returns_pure.mp final
    exact considered_cancelled read (by decide) cancelled
  · rename_i live
    split at run
    · rename_i locked
      obtain ⟨rfl, rfl⟩ := returns_pure.mp run
      apply skipped
      intro eligible
      simp [eligible.unlocked] at locked
    · rename_i unlocked
      simp only [returns_bind, returns_gets] at run
      obtain ⟨_, _, ⟨rfl, rfl⟩, run⟩ := run
      split at run
      · obtain ⟨r, u, cancelled, final⟩ := returns_bind.mp run
        obtain ⟨rfl, rfl⟩ := returns_pure.mp final
        exact considered_cancelled read (by decide) cancelled
      · rename_i unfailed
        split at run
        · rename_i held
          obtain ⟨rfl, rfl⟩ := returns_pure.mp run
          apply skipped
          intro eligible
          rcases held with waiting | label | protocol | turn
          · obtain ⟨dependency, needed, waits⟩ := List.mem_map.mp waiting
            rw [needOf_of_met (eligible.needs dependency needed)] at waits
            cases waits
          · exact label eligible.labelled
          · have child : job.parent_run_id ≠ [] := by simpa using protocol.1
            have enough := eligible.protocol child
            omega
          · rw [eligible.turn turn.1] at turn
            exact absurd turn.2 (by decide)
        · rename_i free
          obtain ⟨young, _, ⟨rfl, rfl⟩, final⟩ := returns_bind.mp run
          obtain ⟨rfl, rfl⟩ := returns_pure.mp final
          change Considered host options busy pending name ((tooYoung host s options name).elim .take .wait) s s
          cases young : tooYoung host s options name with
          | some milliseconds =>
            refine ⟨fun _ refused => refused, (fun take => by cases take), ?_⟩
            intro _
            apply refused_of_read read
            intro eligible
            rw [eligible.aged] at young
            cases young
          | none =>
            simp only [not_or, not_and, not_not] at free live unlocked
            have eligible : Eligible host options busy pending s name job := by
              refine ⟨read, List.isEmpty_iff.mp unlocked, ?_, ?_, free.2.1, ?_, ?_, young⟩
              · intro child
                exact eq_false_of_ne_true (live (.inl (by simpa using child)))
              · intro dependency needed
                apply met_of_needOf
                cases state : needOf s job dependency with
                | met => rfl
                | waiting => exact absurd (List.mem_map.mpr ⟨dependency, needed, state⟩) free.1
                | failed => exact absurd (List.mem_map.mpr ⟨dependency, needed, state⟩) unfailed
              · intro child
                exact Nat.not_lt.mp (free.2.2.1 (by simpa using child))
              · intro turns
                exact eq_false_of_ne_true (free.2.2.2 turns)
            refine ⟨fun _ refused => refused, ?_, fun skips => absurd rfl skips⟩
            intro _
            refine ⟨rfl, ?_⟩
            intro other found
            rw [read] at found
            cases found
            exact eligible

theorem chooseEntry_considered {choice : Choice}
    (run : (chooseEntry host options busy pending name).Returns s choice t) :
    Considered host options busy pending name choice s t := by
  simp only [chooseEntry, returns_bind, returns_gets] at run
  obtain ⟨found, _, ⟨read, rfl⟩, run⟩ := run
  cases found with
  | some job => exact consider_considered read run
  | none =>
    obtain ⟨rfl, rfl⟩ := returns_pure.mp run
    refine ⟨fun _ refused => refused, ?_, fun skips => absurd rfl skips⟩
    intro _
    refine ⟨rfl, ?_⟩
    intro job found
    rw [read] at found
    cases found

/-- A taken file leaves the spool and nothing else that eligibility looks at. -/
theorem refused_of_taken {other : Bytes} (spool : ∀ held, t.get (.queue .spool held) = none
      ∨ t.get (.queue .spool held) = s.get (.queue .spool held))
    (runs : ∀ project id file, t.get (.run project id file) = s.get (.run project id file))
    (refused : Refused host options busy pending s other) : Refused host options busy pending t other := by
  intro job named eligible
  have waits : t.get (.queue .spool other) = s.get (.queue .spool other) := by
    rcases spool other with gone | same
    · obtain ⟨file, there, _⟩ := Files.readAs_some.mp eligible.queued
      rw [gone] at there
      cases there
    · exact same
  have loads : ∀ project id, loadCiRun t project id = loadCiRun s project id :=
    fun project id => loadCiRun_same (runs project id .record)
  have directories : ∀ project id, hasRunDir t project id = hasRunDir s project id := by
    intro project id
    rw [hasRunDir, hasRunDir, runs]
  have markers : ∀ project id marker cap, marked t project id marker cap = marked s project id marker cap := by
    intro project id marker cap
    rw [marked, marked, Files.readCapped_congr (runs project id marker)]
  have requested : isCiCancelRequested t job.project_name job.job_id
      = isCiCancelRequested s job.project_name job.job_id := by
    simp only [isCiCancelRequested, directories, markers, loads]
  apply refused job named
  refine { eligible with queued := ?_, uncancelled := ?_, needs := ?_, aged := ?_ }
  · rw [← eligible.queued]
    exact (Files.readAs_congr waits).symm
  · intro child
    rw [← requested]
    exact eligible.uncancelled child
  · intro dependency needed
    obtain ⟨result, loaded, same⟩ := eligible.needs dependency needed
    exact ⟨result, (loads _ _).symm.trans loaded, same⟩
  · rw [← eligible.aged]
    unfold tooYoung
    rw [waits]

/-- The file that is renamed away. -/
theorem renamed_away {target : Bytes} :
    (s.rename (.queue .spool name) (.queue .working target)).get (.queue .spool name)
    = none := by
  unfold Files.rename
  split
  · assumption
  · rw [Files.get_put_ne (by intro same; cases same), Files.get_remove_self]

theorem renamed_other {source target path : Path} (from_other : path ≠ source) (to_other : path ≠ target) :
    (s.rename source target).get path = s.get path := by
  unfold Files.rename
  split
  · rfl
  · rw [Files.get_put_ne to_other, Files.get_remove_ne from_other]

/-- A job that is not claimed after all is out of the queue. -/
theorem takeJob_none {runner : Bytes} {lease_seconds : UInt64}
    (run : (takeJob host runner lease_seconds name).Returns s none t) :
    (∀ other, Refused host options busy pending s other → Refused host options busy pending t other)
      ∧ Refused host options busy pending t name := by
  have absent : ∀ {u : Files}, u.get (.queue .spool name) = none → Refused host options busy pending u name := by
    intro u gone job _ eligible
    obtain ⟨file, there, _⟩ := Files.readAs_some.mp eligible.queued
    rw [gone] at there
    cases there
  simp only [takeJob, returns_bind, returns_gets] at run
  obtain ⟨queued, _, ⟨rfl, rfl⟩, run⟩ := run
  split at run
  · rename_i gone
    obtain ⟨_, rfl⟩ := returns_pure.mp run
    exact ⟨fun _ refused => refused, absent (Option.isNone_iff_eq_none.mp gone)⟩
  · simp only [renameFile, returns_bind, returns_modify, returns_gets] at run
    obtain ⟨_, u, rfl, found, _, ⟨read, rfl⟩, run⟩ := run
    cases found with
    | some job =>
      obtain ⟨_, _, _, final⟩ := returns_bind.mp run
      cases (returns_pure.mp final).1
    | none =>
      simp only [returns_bind, returns_modify] at run
      obtain ⟨_, _, rfl, final⟩ := run
      obtain ⟨_, rfl⟩ := returns_pure.mp final
      have spool : ∀ held, ((s.rename (.queue .spool name) (.queue .working name)).rename (.queue .working name)
          (.queue .working (name ++ ascii ".rejected"))).get (.queue .spool held)
          = (s.rename (.queue .spool name) (.queue .working name)).get (.queue .spool held) :=
        fun held => renamed_other (by intro same; cases same) (by intro same; cases same)
      refine ⟨fun other => refused_of_taken ?_ ?_, ?_⟩
      · intro held
        rw [spool]
        by_cases same : held = name
        · subst same
          exact .inl renamed_away
        · apply Or.inr
          apply renamed_other
          · intro paths
            injection paths with _ names
            exact same names
          · intro paths
            cases paths
      · intro project id file
        rw [renamed_other (by intro same; cases same) (by intro same; cases same),
          renamed_other (by intro same; cases same) (by intro same; cases same)]
      · exact absent ((spool name).trans renamed_away)

/-- A claim is of the job that waited, under a lease of this runner. -/
theorem takeJob_some {runner : Bytes} {lease_seconds : UInt64} {claim : CiClaim}
    (run : (takeJob host runner lease_seconds name).Returns s (some claim) t) :
    readJobAt s .spool name = some claim.job
      ∧ claim.lease = { runner, token := host.token, expires_epoch_seconds := host.now + lease_seconds } := by
  simp only [takeJob, returns_bind, returns_gets] at run
  obtain ⟨queued, _, ⟨rfl, rfl⟩, run⟩ := run
  split at run
  · cases (returns_pure.mp run).1
  · rename_i present
    simp only [renameFile, returns_bind, returns_modify, returns_gets] at run
    obtain ⟨_, u, rfl, found, _, ⟨read, rfl⟩, run⟩ := run
    cases found with
    | none =>
      obtain ⟨_, _, _, final⟩ := returns_bind.mp run
      cases (returns_pure.mp final).1
    | some job =>
      obtain ⟨_, _, _, final⟩ := returns_bind.mp run
      obtain ⟨same, _⟩ := returns_pure.mp final
      cases same
      obtain ⟨file, there, short, parsed⟩ := Files.readAs_some.mp read
      refine ⟨Files.readAs_some.mpr ⟨file, ?_, short, parsed⟩, rfl⟩
      unfold Files.rename at there
      split at there
      · rename_i gone
        simp [gone] at present
      · rename_i held waits
        rw [Files.get_put_self] at there
        cases there
        exact waits

/-- The claim is of the first eligible job of these names: neither a name before it nor one of those passed
holds an eligible job when it is taken. -/
def FirstOf (host : Host) (options : CiClaimOptions) (busy pending : List RefHolder) (passed names : List Bytes)
    (claim : CiClaim) (t : Files) : Prop :=
  ∃ earlier name later m after, names = earlier ++ name :: later
    ∧ (∀ other ∈ passed ++ earlier, Refused host options busy pending m other)
    ∧ Eligible host options busy pending m name claim.job
    ∧ (takeJob host options.runner options.lease_seconds name).Returns m (some claim) after
    ∧ (whenever (¬ claim.job.parent_run_id.isEmpty) (reconcileWorkflowGroups host)).Returns after () t

theorem FirstOf.onward {passed rest : List Bytes} {claim : CiClaim}
    (h : FirstOf host options busy pending (passed ++ [name]) rest claim t) :
    FirstOf host options busy pending passed (name :: rest) claim t := by
  obtain ⟨earlier, other, later, m, after, split, before, rest⟩ := h
  refine ⟨name :: earlier, other, later, m, after, by rw [split]; rfl, ?_, rest⟩
  intro held member
  apply before held
  simpa using member

/-- What a claim says of the queue: the job it hands out is the first eligible one, and where it hands out
none, every job was refused. -/
def Offered (host : Host) (options : CiClaimOptions) (busy pending : List RefHolder) (passed names : List Bytes)
    (found : Option CiClaim) (t : Files) : Prop :=
  match found with
  | some claim => FirstOf host options busy pending passed names claim t
  | none => ∀ name ∈ passed ++ names, Refused host options busy pending t name

theorem Offered.onward {passed rest : List Bytes} {found : Option CiClaim}
    (h : Offered host options busy pending (passed ++ [name]) rest found t) :
    Offered host options busy pending passed (name :: rest) found t := by
  cases found with
  | some claim => exact FirstOf.onward h
  | none =>
    intro other member
    refine h other ?_
    rwa [List.append_assoc, List.singleton_append]

theorem claimFrom_offered {names : List Bytes} {found : Option CiClaim} {retry_in wait : Option Int}
    (run : (claimFrom host options busy pending names retry_in).Returns s (found, wait) t) (passed : List Bytes)
    (refused : ∀ other ∈ passed, Refused host options busy pending s other) :
    Offered host options busy pending passed names found t := by
  induction names generalizing s retry_in passed with
  | nil =>
    obtain ⟨same, rfl⟩ := returns_pure.mp run
    cases same
    simpa [Offered] using refused
  | cons name rest ih =>
    simp only [claimFrom, returns_bind] at run
    obtain ⟨choice, u, chosen, run⟩ := run
    have considered := chooseEntry_considered chosen
    have kept : ∀ other ∈ passed, Refused host options busy pending u other :=
      fun other member => considered.stays other (refused other member)
    have passes : ∀ {v : Files}, (∀ other ∈ passed, Refused host options busy pending v other) →
        Refused host options busy pending v name
          → ∀ other ∈ passed ++ [name], Refused host options busy pending v other := by
      intro v before now other member
      rcases List.mem_append.mp member with earlier | same
      · exact before other earlier
      · rw [List.mem_singleton.mp same]
        exact now
    cases choice with
    | skip => exact (ih run _ (passes kept (considered.passed (by intro take; cases take)))).onward
    | wait milliseconds => exact (ih run _ (passes kept (considered.passed (by intro take; cases take)))).onward
    | take =>
      obtain ⟨rfl, eligible⟩ := considered.taken rfl
      obtain ⟨taken, v, took, run⟩ := returns_bind.mp run
      cases taken with
      | none =>
        obtain ⟨stays, gone⟩ := takeJob_none took
        exact (ih run _ (passes (fun other member => stays other (kept other member)) gone)).onward
      | some claim =>
        obtain ⟨r, w, settled, final⟩ := returns_bind.mp run
        obtain ⟨same, rfl⟩ := returns_pure.mp final
        cases same
        refine ⟨[], name, rest, u, v, rfl, ?_, eligible claim.job (takeJob_some took).1, took, settled⟩
        simpa using kept

/-- A runner is given the first job of the queue that it may have: its needs have succeeded, it needs no
permit, its labels are the runner's, no other run has its ref or its turn on it first, and it is old
enough; and no job before it was any of this. Where it is given none, no job of the queue is. -/
theorem claims_first_eligible (host : Host) (options : CiClaimOptions) (s t : Files) (found : Option CiClaim)
    (wait : Option Int) (claimed : (claimCiJob host options).exec s = (.ok (found, wait), t)) :
    ∃ u pending, (reconcileWorkflowGroups host).exec s = (.ok (), u)
      ∧ pendingRefs options u (queueOrder (host.order (u.names .spool))) = .ok pending
      ∧ Offered host options (busyRefs u) pending [] (queueOrder (host.order (u.names .spool))) found t
      ∧ ∀ claim ∈ found, claim.lease = ⟨options.runner, host.token, host.now + options.lease_seconds⟩ := by
  change (claimCiJob host options).Returns s (found, wait) t at claimed
  simp only [claimCiJob, returns_bind, returns_ofExcept, returns_gets, returns_reads] at claimed
  obtain ⟨_, _, ⟨_, rfl⟩, r, u, reconciled, _, _, ⟨rfl, rfl⟩, _, _, ⟨rfl, rfl⟩, pending, _, ⟨held, rfl⟩,
    run⟩ := claimed
  have offered := claimFrom_offered run [] (by simp)
  refine ⟨u, pending, reconciled, held, offered, ?_⟩
  rintro claim rfl
  obtain ⟨_, _, _, _, _, _, _, _, took, _⟩ := offered
  exact (takeJob_some took).2

private theorem claimCiJob_exec {u : Files} {names : List Bytes}
    (valid : isValidClientId options.runner = true ∧ options.lease_seconds ≠ 0)
    (settled : (reconcileWorkflowGroups host).exec s = (.ok (), u))
    (queue : queueOrder (host.order (u.names .spool)) = names) (held : pendingRefs options u names = .ok pending) :
    (claimCiJob host options).exec s = (claimFrom host options (busyRefs u) pending names none).exec u := by
  have fine : failIf (¬ isValidClientId options.runner ∨ options.lease_seconds = 0) "invalid CI claim options"
      = .ok () := if_neg (by simp [valid.1, valid.2])
  have checked : (ofExcept (failIf (¬ isValidClientId options.runner ∨ options.lease_seconds = 0)
      "invalid CI claim options") : Op Unit).exec s = (.ok (), s) := by
    rw [fine]
    rfl
  have listed : (reads (pendingRefs options · names) : Op (List RefHolder)).exec u = (.ok pending, u) := by
    change (ofExcept (pendingRefs options u names) : Op (List RefHolder)).exec u = _
    rw [held]
    rfl
  calc (claimCiJob host options).exec s
      = (do
          let pending ← reads (pendingRefs options · names)
          claimFrom host options (busyRefs u) pending names none : Op _).exec u := by
        simp only [claimCiJob, exec_bind, checked, settled, ← queue]
        rfl
    _ = (claimFrom host options (busyRefs u) pending names none).exec u := by
        rw [exec_bind, listed]

def plainOptions : CiClaimOptions := { runner := ascii "r", lease_seconds := 60 }

/-- A job for a runner with a graphics card, and one on another branch for any runner. -/
def labelledFiles : Files :=
  [{ firstJob with job_id := ascii "2", ref := ascii "refs/heads/dev" }, { firstJob with runs_on := [ascii "gpu"] }].foldl
    (fun s job => ((enqueueCiJob firstHost job).exec s).2) ∅

private theorem queueOrder_labelled : queueOrder [ini (ascii "1"), ini (ascii "2")] = [ini (ascii "1"), ini (ascii "2")] := by
  rw [queueOrder, List.mergeSort_of_pairwise (by decide)]
  decide

/-- The store as a claim finds it behind its reconciling, and as it leaves it. -/
def settledFiles (s : Files) : Files := ((reconcileWorkflowGroups firstHost).exec s).2
def claimedFiles (s : Files) : Files := ((claimCiJob firstHost plainOptions).exec s).2

private theorem settled_exec (fine : ((reconcileWorkflowGroups firstHost).exec s).1 = .ok ()) :
    (reconcileWorkflowGroups firstHost).exec s = (.ok (), settledFiles s) := Prod.ext fine rfl

def secondClaim : CiClaim where
  job := { firstJob with job_id := ascii "2", ref := ascii "refs/heads/dev" }
  lease := ⟨ascii "r", firstHost.token, 160⟩

/-- The first claim, behind its reconciling. -/
def labelledClaim : Except String (Option CiClaim × Option Int) × Files :=
  (claimFrom firstHost plainOptions (busyRefs (settledFiles labelledFiles)) [] [ini (ascii "1"), ini (ascii "2")]
    none).exec (settledFiles labelledFiles)

private theorem labelled_table : ((reconcileWorkflowGroups firstHost).exec labelledFiles).1 = .ok ()
    ∧ (settledFiles labelledFiles).names .spool = [ini (ascii "1"), ini (ascii "2")]
    ∧ pendingRefs plainOptions (settledFiles labelledFiles) [ini (ascii "1"), ini (ascii "2")] = .ok []
    ∧ labelledClaim.1 = .ok (some secondClaim, none)
    ∧ ((claimCiJob firstHost plainOptions).exec labelledClaim.2).1 = .ok (none, none)
    ∧ ini (ascii "1") ∈ queueOrder (firstHost.order ((settledFiles labelledClaim.2).names .spool)) := by
  decide +kernel

private theorem queue_labelled :
    queueOrder (firstHost.order ((settledFiles labelledFiles).names .spool)) = [ini (ascii "1"), ini (ascii "2")] :=
  (congrArg queueOrder labelled_table.2.1).trans queueOrder_labelled

private theorem claimed_labelled : (claimCiJob firstHost plainOptions).exec labelledFiles = labelledClaim :=
  claimCiJob_exec (by decide) (settled_exec labelled_table.1) queue_labelled labelled_table.2.2.1

/-- A plain runner is given the second job of the queue, and then the first is all that is left and it is
given none. -/
theorem claims_first_eligible_labelled :
    (∃ pending, FirstOf firstHost plainOptions (busyRefs (settledFiles labelledFiles)) pending []
      [ini (ascii "1"), ini (ascii "2")] secondClaim (claimedFiles labelledFiles))
    ∧ ∃ pending, Refused firstHost plainOptions (busyRefs (settledFiles (claimedFiles labelledFiles))) pending
      (claimedFiles (claimedFiles labelledFiles)) (ini (ascii "1")) := by
  obtain ⟨_, _, _, given_second, none_next, still_queued⟩ := labelled_table
  constructor
  · have given : (claimCiJob firstHost plainOptions).exec labelledFiles
        = (.ok (some secondClaim, none), claimedFiles labelledFiles) := by
      refine Prod.ext ?_ rfl
      rw [claimed_labelled]
      exact given_second
    obtain ⟨u, pending, settled, _, first, _⟩ := claims_first_eligible _ _ _ _ _ _ given
    obtain rfl : settledFiles labelledFiles = u := congrArg Prod.snd settled
    exact ⟨pending, queue_labelled ▸ first⟩
  · have after : claimedFiles labelledFiles = labelledClaim.2 := congrArg Prod.snd claimed_labelled
    have none_left : (claimCiJob firstHost plainOptions).exec (claimedFiles labelledFiles)
        = (.ok (none, none), claimedFiles (claimedFiles labelledFiles)) := by
      refine Prod.ext ?_ rfl
      rw [after]
      exact none_next
    obtain ⟨u, pending, settled, _, refused, _⟩ := claims_first_eligible _ _ _ _ _ _ none_left
    obtain rfl : settledFiles (claimedFiles labelledFiles) = u := congrArg Prod.snd settled
    refine ⟨pending, refused _ ?_⟩
    rw [after]
    exact still_queued

end CkGit.Store
