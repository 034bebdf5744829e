import CkGit.Store.Attempts
import CkGit.Store.Regrouping

/-!
One job and where it is kept: its file in spool/ or working/, a run record that
has ended, or the journal of its workflow. The invariant, what one write of the
store does to it, and what the operations do up to a single claimed job: every
write, and so every crash, keeps it.
-/
namespace CkGit.Store
open CkGit.Base CkGit.Ci Prog

section
variable (project id : Bytes) (s : Files)

def FilePresent : Prop := ∃ directory, Queued directory ∧ (s.get (.queue directory (ini id))).isSome

def Ended : Prop := ∃ run, loadCiRun s project id = some run ∧ ciRunStatusIsActive run.status = false

/-- The next claim or reap finds the job, or its run has ended. -/
def Safe : Prop := FilePresent id s ∨ Ended project id s

def Lists (group : WorkflowGroup) : Prop := ∃ child ∈ group.children, child.job_id = id

/-- The journal of the job's workflow is durable under this name. -/
def Journalled (name : Bytes) : Prop := ∃ bytes group,
  s.readCapped (.queue .groups name) kMaximumWorkflowGroupBytes = .ok (some bytes)
    ∧ parseWorkflowGroup bytes = .ok group ∧ name = ini group.parent.job_id ∧ Lists id group

/-- The job is safe, or one of these journals has it. -/
def Somewhere (pending : Bytes → Prop) : Prop := Safe project id s ∨ ∃ name, pending name ∧ Journalled id s name

/-- A group that may hold the job, but as this project's child only. -/
def Spares (group : WorkflowGroup) : Prop :=
  group.parent.job_id ≠ id ∧ ∀ child ∈ group.children, child.job_id = id → child.project_name = project

/-- A job file under its own name, and the tracked one in its project. -/
def Filed (name : Bytes) (job : CiJobRequest) : Prop :=
  name = ini job.job_id ∧ (job.job_id = id → job.project_name = project)

/-- A record that can still be given up: the last message fits beside its steps. -/
def Roomy (run : CiRunRecord) : Prop := ∀ (now : UInt64) (detail : Bytes), detail.length ≤ kMaximumCiDetailBytes →
  ∃ text, runRecordText { run with status := .error, finished_epoch_seconds := now, heartbeat_epoch_seconds := now,
                                   detail } = .ok text

/-- The files of working/. -/
def working (name : Bytes) : Option File := s.get (.queue .working name)

/-- What a step relies on. -/
structure Demand where
  /-- The job was accepted. -/
  due : Prop
  /-- The journals that still count as a place of the job. -/
  pending : Bytes → Prop
  /-- What is known of the claimed jobs. -/
  work : (Bytes → Option File) → Prop
  /-- The run of the job has ended. -/
  ended : Prop

/-- What holds between any two writes. -/
structure Keeping (d : Demand) (s : Files) : Prop where
  filed : ∀ directory, Queued directory → ∀ name job, readJobAt s directory name = some job → Filed project id name job
  clean : ∀ directory, Queued directory → (s.get (.queue directory (ini id))).isSome →
    (readJobAt s directory (ini id)).isSome
  record : ∀ owner name run, loadCiRun s owner name = some run → run.project_name = owner ∧ run.run_id = name
  roomy : ∀ run, loadCiRun s project id = some run → ciRunStatusIsActive run.status = true → Roomy run
  journals : ∀ name bytes group, s.readCapped (.queue .groups name) kMaximumWorkflowGroupBytes = .ok (some bytes) →
    parseWorkflowGroup bytes = .ok group → Spares project id group
  published : ∀ owner run bytes group,
    s.readCapped (.run owner run .workflow) kMaximumWorkflowGroupBytes = .ok (some bytes) →
    parseWorkflowGroup bytes = .ok group → Lists id group → Somewhere project id s d.pending
  due_kept : d.due → Somewhere project id s d.pending
  work_kept : d.work (working s)
  ended_kept : d.ended → Ended project id s

end

variable {project id : Bytes} {s t : Files} {d : Demand}

theorem Somewhere.mono {pending pending' : Bytes → Prop} (h : Somewhere project id s pending)
    (more : ∀ name, pending name → pending' name) : Somewhere project id s pending' :=
  h.imp_right fun placed => placed.imp fun name journal => journal.imp_left (more name)

theorem Keeping.weaken {d' : Demand} (h : Keeping project id d s) (due : d'.due → d.due)
    (pending : ∀ name, d.pending name → d'.pending name) (work : ∀ files, d.work files → d'.work files)
    (ended : d'.ended → d.ended) : Keeping project id d' s :=
  { h with
    published := fun owner run bytes group read parsed listed =>
      (h.published owner run bytes group read parsed listed).mono pending
    due_kept := fun asked => (h.due_kept (due asked)).mono pending
    work_kept := work _ h.work_kept
    ended_kept := fun asked => h.ended_kept (ended asked) }

theorem readJobAt_same {directory : Directory} {name : Bytes}
    (same : t.get (.queue directory name) = s.get (.queue directory name)) :
    readJobAt t directory name = readJobAt s directory name := Files.readAs_congr same

/-- The record of the tracked job. -/
def Tracks (project id : Bytes) (run : CiRunRecord) : Prop := run.project_name = project ∧ run.run_id = id

/-- Each file is as before, or what it now says is fine. -/
theorem Keeping.change {d' : Demand} (h : Keeping project id d s)
    (jobs : ∀ directory, Queued directory → ∀ name,
      t.get (.queue directory name) = s.get (.queue directory name) ∨
        (∀ job, readJobAt t directory name = some job → Filed project id name job) ∧
        (name = ini id → (t.get (.queue directory name)).isSome → (readJobAt t directory name).isSome))
    (records : ∀ owner name, t.get (.run owner name .record) = s.get (.run owner name .record) ∨
      ∀ run, loadCiRun t owner name = some run → (run.project_name = owner ∧ run.run_id = name) ∧
        (Tracks project id run → ciRunStatusIsActive run.status = true → Roomy run))
    (journals : ∀ name, t.get (.queue .groups name) = s.get (.queue .groups name) ∨
      ∀ bytes group, t.readCapped (.queue .groups name) kMaximumWorkflowGroupBytes = .ok (some bytes) →
        parseWorkflowGroup bytes = .ok group → Spares project id group)
    (published : ∀ owner run, t.get (.run owner run .workflow) = s.get (.run owner run .workflow) ∨
      ∀ bytes group, t.readCapped (.run owner run .workflow) kMaximumWorkflowGroupBytes = .ok (some bytes) →
        parseWorkflowGroup bytes = .ok group → Lists id group → Somewhere project id t d'.pending)
    (kept : Somewhere project id s d.pending → Somewhere project id t d'.pending)
    (due : d'.due → Somewhere project id t d'.pending)
    (work : d'.work (working t)) (ended : d'.ended → Ended project id t) : Keeping project id d' t where
  filed directory queued name job read := by
    rcases jobs directory queued name with same | fine
    · rw [readJobAt_same same] at read
      exact h.filed directory queued name job read
    · exact fine.1 job read
  clean directory queued present := by
    rcases jobs directory queued (ini id) with same | fine
    · rw [same] at present
      rw [readJobAt_same same]
      exact h.clean directory queued present
    · exact fine.2 rfl present
  record owner name run loaded := by
    rcases records owner name with same | fine
    · rw [loadCiRun_same same] at loaded
      exact h.record owner name run loaded
    · exact (fine run loaded).1
  roomy run loaded active := by
    rcases records project id with same | fine
    · rw [loadCiRun_same same] at loaded
      exact h.roomy run loaded active
    · exact (fine run loaded).2 (fine run loaded).1 active
  journals name bytes group read parsed := by
    rcases journals name with same | fine
    · rw [Files.readCapped_congr same] at read
      exact h.journals name bytes group read parsed
    · exact fine bytes group read parsed
  published owner run bytes group read parsed listed := by
    rcases published owner run with same | fine
    · rw [Files.readCapped_congr same] at read
      exact kept (h.published owner run bytes group read parsed listed)
    · exact fine bytes group read parsed listed
  due_kept := due
  work_kept := work
  ended_kept := ended

/-- The paths the invariant looks at. -/
def Decisive (path : Path) : Prop :=
  match path with
  | .queue directory _ => directory ≠ .leases
  | .run _ _ file => file = .workflow ∨ file = .record

theorem queued_ne {directory : Directory} (queued : Queued directory) : directory ≠ .leases ∧ directory ≠ .groups := by
  rcases queued with rfl | rfl <;> exact ⟨by decide, by decide⟩

theorem FilePresent.same (queue : ∀ directory, Queued directory →
      t.get (.queue directory (ini id)) = s.get (.queue directory (ini id))) (h : FilePresent id s) :
    FilePresent id t := by
  obtain ⟨directory, queued, present⟩ := h
  exact ⟨directory, queued, queue directory queued ▸ present⟩

theorem Ended.same (record : t.get (.run project id .record) = s.get (.run project id .record))
    (h : Ended project id s) : Ended project id t := by
  obtain ⟨run, loaded, status⟩ := h
  exact ⟨run, (loadCiRun_same record).trans loaded, status⟩

theorem Journalled.same {name : Bytes} (journal : t.get (.queue .groups name) = s.get (.queue .groups name))
    (h : Journalled id s name) : Journalled id t name := by
  obtain ⟨bytes, group, read, rest⟩ := h
  exact ⟨bytes, group, (Files.readCapped_congr journal).trans read, rest⟩

theorem Safe.same (queue : ∀ directory, Queued directory →
      t.get (.queue directory (ini id)) = s.get (.queue directory (ini id)))
    (record : t.get (.run project id .record) = s.get (.run project id .record)) (h : Safe project id s) :
    Safe project id t := h.imp (FilePresent.same queue) (Ended.same record)

/-- Where the job files and the record are as before, the job is kept as before. -/
theorem Somewhere.same {pending : Bytes → Prop} (h : Somewhere project id s pending)
    (safe : Safe project id s → Safe project id t)
    (journals : ∀ name, t.get (.queue .groups name) = s.get (.queue .groups name)) :
    Somewhere project id t pending :=
  h.imp safe fun placed => placed.imp fun name journal => journal.imp_right (Journalled.same (journals name))

theorem Keeping.same (h : Keeping project id d s) (same : ∀ path, Decisive path → t.get path = s.get path) :
    Keeping project id d t := by
  have queue : ∀ directory name, directory ≠ .leases → t.get (.queue directory name) = s.get (.queue directory name) :=
    fun directory name other => same _ other
  have record : ∀ owner name, t.get (.run owner name .record) = s.get (.run owner name .record) := by
    intro owner name
    have recorded : Decisive (.run owner name .record) := Or.inr rfl
    exact same _ recorded
  have kept : ∀ {pending}, Somewhere project id s pending → Somewhere project id t pending := fun placed =>
    placed.same (Safe.same (fun directory queued => queue _ _ (queued_ne queued).1) (record _ _))
      fun name => queue _ _ (by decide)
  have published : ∀ owner run, t.get (.run owner run .workflow) = s.get (.run owner run .workflow) := by
    intro owner run
    have journal : Decisive (.run owner run .workflow) := Or.inl rfl
    exact same _ journal
  refine h.change (fun directory queued name => .inl (queue _ _ (queued_ne queued).1)) (fun _ _ => .inl (record _ _))
    (fun name => .inl (queue _ _ (by decide))) (fun _ _ => .inl (published _ _)) kept
    (fun asked => kept (h.due_kept asked)) ?_ fun asked => (h.ended_kept asked).same (record _ _)
  · rw [show working t = working s from funext fun name => queue _ _ (by decide)]
    exact h.work_kept

theorem Keeping.put_other (h : Keeping project id d s) {path : Path} {file : File} (other : ¬ Decisive path) :
    Keeping project id d (s.put path file) := by
  refine h.same fun decisive inside => Files.get_put_ne ?_
  rintro rfl
  exact other inside

theorem Keeping.remove_other (h : Keeping project id d s) {path : Path} (other : ¬ Decisive path) :
    Keeping project id d (s.remove path) := by
  refine h.same fun decisive inside => Files.get_remove_ne ?_
  rintro rfl
  exact other inside

/-- One queue file changes; the run records and the journals stay. -/
theorem Keeping.queue (h : Keeping project id d s) {directory : Directory} {name : Bytes}
    (changed : Queued directory)
    (others : ∀ path, path ≠ .queue directory name → t.get path = s.get path)
    (filed : ∀ job, readJobAt t directory name = some job → Filed project id name job)
    (clean : name = ini id → (t.get (.queue directory name)).isSome → (readJobAt t directory name).isSome)
    (kept : name = ini id → Safe project id t)
    (work : directory = .working → d.work (working t)) : Keeping project id d t := by
  have elsewhere : ∀ other inside, Path.queue other inside ≠ .queue directory name →
      t.get (.queue other inside) = s.get (.queue other inside) := fun other inside => others _
  have record : ∀ owner name, t.get (.run owner name .record) = s.get (.run owner name .record) :=
    fun _ _ => others _ (by simp)
  have journals : ∀ name, t.get (.queue .groups name) = s.get (.queue .groups name) := by
    intro name
    apply others
    intro equal
    injection equal with equal
    exact (queued_ne changed).2 equal.symm
  have keep : ∀ {pending}, Somewhere project id s pending → Somewhere project id t pending := by
    intro pending placed
    by_cases mine : name = ini id
    · exact .inl (kept mine)
    · refine placed.same (Safe.same (fun other _ => elsewhere _ _ ?_) (record _ _)) journals
      intro equal
      injection equal with _ equal
      exact mine equal.symm
  refine h.change (fun other queued inside => ?_) (fun _ _ => .inl (record _ _)) (fun _ => .inl (journals _))
    (fun _ _ => .inl (others _ (by simp))) keep (fun asked => keep (h.due_kept asked)) ?_
    fun asked => (h.ended_kept asked).same (record _ _)
  · by_cases here : Path.queue other inside = .queue directory name
    · injection here with first second
      subst first second
      exact .inr ⟨filed, clean⟩
    · exact .inl (elsewhere _ _ here)
  · by_cases here : directory = .working
    · exact work here
    · rw [show working t = working s from funext fun name => elsewhere _ _ fun equal => by
        injection equal with equal
        exact here equal.symm]
      exact h.work_kept

/-- What the queue may hold under the name of a job: the tracked one readable and as its project's. -/
structure Ours (project id : Bytes) (job : CiJobRequest) : Prop where
  own : job.job_id = id → job.project_name = project
  readable : job.job_id = id → ReadableJob job ∧ job.runs_on.length ≤ kMaximumCiLabels

/-- A job is queued under its own name. -/
theorem Keeping.put_job (h : Keeping project id d s) {job : CiJobRequest} {modified : Int}
    (ours : Ours project id job) :
    Keeping project id { d with due := d.due ∨ job.job_id = id }
      (s.put (.queue .spool (ini job.job_id)) ⟨serializeJob job, modified⟩) := by
  have safe : ini job.job_id = ini id →
      Safe project id (s.put (.queue .spool (ini job.job_id)) ⟨serializeJob job, modified⟩) := by
    intro mine
    refine .inl ⟨.spool, .inl rfl, ?_⟩
    rw [mine, Files.get_put_self]
    rfl
  have kept : Keeping project id d (s.put (.queue .spool (ini job.job_id)) ⟨serializeJob job, modified⟩) := by
    refine h.queue (.inl rfl) (fun path other => Files.get_put_ne other) (fun found again => ?_) (fun mine _ => ?_) safe
      (by intro wrong; cases wrong)
    · obtain ⟨file, there, _, parsed⟩ := Files.readAs_some.mp again
      rw [Files.get_put_self] at there
      obtain rfl := Option.some.inj there
      have key := (parsed_read parsed).key
      have same : found.job_id = job.job_id := congrArg JobKey.job_id key
      have owner : found.project_name = job.project_name := congrArg JobKey.project_name key
      exact ⟨by rw [same], fun mine => owner.trans (ours.own (same ▸ mine))⟩
    · obtain ⟨readable, few⟩ := ours.readable (ini_injective mine)
      have read : readJobAt (s.put (.queue .spool (ini job.job_id)) ⟨serializeJob job, modified⟩) .spool
          (ini job.job_id) = some job.withSortedLabels :=
        Files.readAs_some.mpr ⟨_, Files.get_put_self, readable.fits few, parseJob_serializeJob readable⟩
      rw [read]
      rfl
  refine { kept with due_kept := fun asked => asked.elim kept.due_kept fun mine => .inl (safe (congrArg ini mine)) }

/-- What the queue holds of a job may be written again. -/
theorem Keeping.ours (h : Keeping project id d s) {directory : Directory} {name : Bytes}
    {job : CiJobRequest} (queued : Queued directory) (read : readJobAt s directory name = some job) :
    name = ini job.job_id ∧ (job.job_id = id → job.project_name = project) ∧ ReadableJob job
      ∧ job.runs_on.length ≤ kMaximumCiLabels := by
  obtain ⟨named, own⟩ := h.filed directory queued name job read
  obtain ⟨_, _, _, parsed⟩ := Files.readAs_some.mp read
  obtain ⟨readable, sorted⟩ := parseJob_readable parsed
  have labels : sortedUnique job.runs_on = job.runs_on := congrArg CiJobRequest.runs_on sorted
  exact ⟨named, own, readable, labels ▸ readable.labels_few⟩

/-- A job file goes: the tracked one only when it is kept elsewhere. -/
theorem Keeping.remove_job (h : Keeping project id d s) {directory : Directory} {name : Bytes}
    (queued : Queued directory)
    (spared : name = ini id → Ended project id s ∨ ∃ other, Queued other ∧ other ≠ directory
      ∧ (s.get (.queue other (ini id))).isSome)
    (free : directory = .working → d.work (working (s.remove (.queue directory name)))) :
    Keeping project id d (s.remove (.queue directory name)) := by
  have none : readJobAt (s.remove (.queue directory name)) directory name = none := by
    simp [readJobAt, Files.readAs, Files.readCapped, Files.get_remove_self]
  refine h.queue queued (fun path other => Files.get_remove_ne other) (fun job read => ?_) (fun _ present => ?_)
    (fun mine => ?_) free
  · rw [none] at read
    cases read
  · rw [Files.get_remove_self] at present
    cases present
  · rcases spared mine with finished | ⟨other, there, apart, present⟩
    · exact .inr (finished.same (Files.get_remove_ne (by simp)))
    · refine .inl ⟨other, there, ?_⟩
      rwa [Files.get_remove_ne]
      intro equal
      injection equal with equal
      exact apart equal

/-- A claim moves the file from spool/ to working/. -/
theorem Keeping.claim (h : Keeping project id d s) (free : ∀ files, d.work files) (name : Bytes) :
    Keeping project id d (s.rename (.queue .spool name) (.queue .working name)) := by
  unfold Files.rename
  split
  · exact h
  · next file there =>
    have read : ∀ t : Files, readJobAt (t.put (.queue .working name) file) .working name = readJobAt s .spool name := by
      intro t
      simp [readJobAt, Files.readAs, Files.readCapped, there]
    have moved : Keeping project id d (s.put (.queue .working name) file) := by
      refine h.queue (.inr rfl) (fun path other => Files.get_put_ne other) (fun job again => ?_) (fun mine _ => ?_)
        (fun mine => .inl ⟨.working, .inr rfl, ?_⟩) (fun _ => free _)
      · rw [read] at again
        exact h.filed .spool (.inl rfl) name job again
      · subst mine
        rw [read]
        exact h.clean .spool (.inl rfl) (by rw [there]; rfl)
      · rw [mine, Files.get_put_self]
        rfl
    have arrived : name = ini id → ((s.put (.queue .working name) file).get (.queue .working (ini id))).isSome := by
      intro mine
      rw [mine, Files.get_put_self]
      rfl
    have gone := @Keeping.remove_job _ _ _ _ moved .spool name (.inl rfl)
      (fun mine => .inr ⟨.working, .inr rfl, by decide, arrived mine⟩) (by intro wrong; cases wrong)
    refine gone.same fun path _ => ?_
    by_cases first : path = .queue .working name
    · subst first
      rw [Files.get_put_self, Files.get_remove_ne (by simp), Files.get_put_self]
    · by_cases second : path = .queue .spool name
      · subst second
        rw [Files.get_put_ne first, Files.get_remove_self, Files.get_remove_self]
      · rw [Files.get_put_ne first, Files.get_remove_ne second, Files.get_remove_ne second, Files.get_put_ne first]

/-- A working file that nothing parses is set aside; the tracked one is never that. -/
theorem Keeping.aside (h : Keeping project id d s) {name : Bytes} (unread : readJobAt s .working name = none)
    (free : d.work (working (s.rename (.queue .working name) (.queue .working (name ++ ascii ".rejected"))))) :
    Keeping project id d (s.rename (.queue .working name) (.queue .working (name ++ ascii ".rejected"))) := by
  unfold Files.rename at free ⊢
  split
  · exact h
  · next file there =>
    rw [there] at free
    have other : name ≠ ini id := by
      rintro rfl
      have read := h.clean .working (.inr rfl) (by rw [there]; rfl)
      rw [unread] at read
      cases read
    have known : Keeping project id { d with work := fun _ => True } s :=
      h.weaken (fun asked => asked) (fun _ still => still) (fun _ _ => trivial) fun asked => asked
    have gone := known.remove_job (.inr rfl) (fun mine => absurd mine other) fun _ => trivial
    have bad : ∀ t : Files, readJobAt (t.put (.queue .working (name ++ ascii ".rejected")) file) .working
        (name ++ ascii ".rejected") = none := by
      intro t
      rw [← unread]
      simp [readJobAt, Files.readAs, Files.readCapped, there]
    have moved : Keeping project id { d with work := fun _ => True }
        ((s.remove (.queue .working name)).put (.queue .working (name ++ ascii ".rejected")) file) := by
      refine gone.queue (.inr rfl) (fun path differs => Files.get_put_ne differs) (fun job read => ?_)
        (fun mine => absurd mine.symm (rejected_ne name)) (fun mine => absurd mine.symm (rejected_ne name))
        (fun _ => trivial)
      rw [bad] at read
      cases read
    exact { moved with work_kept := free }

/-- A record that fits is written; the tracked one undoes an ended run only while the job has a file. -/
theorem Keeping.put_record (h : Keeping project id d s) {run : CiRunRecord} {text : Bytes} {modified : Int}
    (written : runRecordText run = .ok text) (fits : RunFits run)
    (roomy : Tracks project id run → ciRunStatusIsActive run.status = true → Roomy run)
    (finished : Tracks project id run → ciRunStatusIsActive run.status = true →
      ¬ d.ended ∧ (Ended project id s → FilePresent id s)) :
    Keeping project id { d with ended := d.ended ∨ Tracks project id run ∧ ciRunStatusIsActive run.status = false }
      (s.put (.run run.project_name run.run_id .record) ⟨text, modified⟩) := by
  have loads := @written_loads s run text modified written fits
  have queue : ∀ directory name, (s.put (.run run.project_name run.run_id .record) ⟨text, modified⟩).get
      (.queue directory name) = s.get (.queue directory name) := fun directory name => Files.get_put_ne (by simp)
  have elsewhere : ∀ owner name, ¬ (owner = run.project_name ∧ name = run.run_id) →
      loadCiRun (s.put (.run run.project_name run.run_id .record) ⟨text, modified⟩) owner name
        = loadCiRun s owner name := by
    intro owner name other
    refine loadCiRun_same (Files.get_put_ne fun equal => other ?_)
    injection equal with first second
    exact ⟨first, second⟩
  have ended_now : Tracks project id run → ciRunStatusIsActive run.status = false →
      Ended project id (s.put (.run run.project_name run.run_id .record) ⟨text, modified⟩) := by
    rintro ⟨rfl, rfl⟩ ended
    exact ⟨run, loads, ended⟩
  have ended_kept : ¬ (Tracks project id run ∧ ciRunStatusIsActive run.status = true) → Ended project id s →
      Ended project id (s.put (.run run.project_name run.run_id .record) ⟨text, modified⟩) := by
    intro harmless ended
    by_cases mine : Tracks project id run
    · exact ended_now mine (by simpa [mine] using harmless)
    · obtain ⟨old, loaded, status⟩ := ended
      exact ⟨old, (elsewhere _ _ fun same => mine ⟨same.1.symm, same.2.symm⟩).trans loaded, status⟩
  have safe : Safe project id s →
      Safe project id (s.put (.run run.project_name run.run_id .record) ⟨text, modified⟩) := by
    rintro (present | ended)
    · exact .inl (present.same fun directory _ => queue _ _)
    · by_cases undone : Tracks project id run ∧ ciRunStatusIsActive run.status = true
      · exact .inl (((finished undone.1 undone.2).2 ended).same fun directory _ => queue _ _)
      · exact .inr (ended_kept undone ended)
  have kept : ∀ {pending}, Somewhere project id s pending →
      Somewhere project id (s.put (.run run.project_name run.run_id .record) ⟨text, modified⟩) pending :=
    fun placed => placed.same safe fun name => queue _ _
  refine h.change (fun _ _ _ => .inl (queue _ _)) (fun owner name => ?_) (fun _ => .inl (queue _ _))
    (fun _ _ => .inl (Files.get_put_ne (by simp))) kept (fun asked => kept (h.due_kept asked)) ?_ fun asked => ?_
  · by_cases here : owner = run.project_name ∧ name = run.run_id
    · refine .inr fun again loaded => ?_
      rw [here.1, here.2, loads] at loaded
      obtain rfl := Option.some.inj loaded
      exact ⟨⟨here.1.symm, here.2.symm⟩, roomy⟩
    · refine .inl (Files.get_put_ne fun equal => here ?_)
      injection equal with first second
      exact ⟨first, second⟩
  · rw [show working (s.put _ _) = working s from funext fun name => queue _ _]
    exact h.work_kept
  · rcases asked with asked | both
    · exact ended_kept (fun undone => (finished undone.1 undone.2).1 asked) (h.ended_kept asked)
    · exact ended_now both.1 both.2

/-- A journal changes while the job is kept without it. -/
theorem Keeping.journal (h : Keeping project id d s) {path : Path} {d' : Demand}
    (changed : (∃ name, path = .queue .groups name) ∨ ∃ owner run, path = .run owner run .workflow)
    (others : ∀ other, other ≠ path → t.get other = s.get other)
    (journals : ∀ name bytes group, path = .queue .groups name →
      t.readCapped path kMaximumWorkflowGroupBytes = .ok (some bytes) → parseWorkflowGroup bytes = .ok group →
      Spares project id group)
    (kept : Somewhere project id s d.pending → Somewhere project id t d'.pending)
    (due : d'.due → Somewhere project id t d'.pending)
    (published : ∀ owner run bytes group, path = .run owner run .workflow →
      t.readCapped path kMaximumWorkflowGroupBytes = .ok (some bytes) → parseWorkflowGroup bytes = .ok group →
      Lists id group → Somewhere project id t d'.pending)
    (work : ∀ files, d.work files → d'.work files) (ended : d'.ended → d.ended) : Keeping project id d' t := by
  have queue : ∀ directory, Queued directory → ∀ name,
      t.get (.queue directory name) = s.get (.queue directory name) := by
    intro directory queued name
    apply others
    rcases changed with ⟨_, rfl⟩ | ⟨_, _, rfl⟩
    · intro equal
      injection equal with equal
      exact (queued_ne queued).2 equal
    · simp
  have record : ∀ owner name, t.get (.run owner name .record) = s.get (.run owner name .record) := by
    intro owner name
    apply others
    rcases changed with ⟨_, rfl⟩ | ⟨_, _, rfl⟩ <;> simp
  refine h.change (fun directory queued name => .inl (queue _ queued _)) (fun _ _ => .inl (record _ _)) (fun name => ?_)
    (fun owner run => ?_) kept due ?_ fun asked => (h.ended_kept (ended asked)).same (record _ _)
  · by_cases here : Path.queue .groups name = path
    · exact .inr fun bytes group read => journals name bytes group here.symm (here ▸ read)
    · exact .inl (others _ here)
  · by_cases here : Path.run owner run .workflow = path
    · exact .inr fun bytes group read => published owner run bytes group here.symm (here ▸ read)
    · exact .inl (others _ here)
  · rw [show working t = working s from funext fun name => queue _ (.inr rfl) _]
    exact work _ h.work_kept

section
open CkGit.Workflow (queuedRecord previewRecord)

variable (host : Host)

/-- Between any two writes the job is kept, also when the operation throws. -/
abbrev Keep (project id : Bytes) (d : Demand) {α : Type} (p : Op α) : Prop := Keeps (Keeping project id d) p

theorem unlink_other {path : Path} (other : ¬ Decisive path) : Keep project id d (unlink path) :=
  Keeps.modify fun _ h => h.remove_other other

theorem writeFile_other {path : Path} {bytes : Bytes} (other : ¬ Decisive path) :
    Keep project id d (writeFile host path bytes) := Keeps.modify fun _ h => h.put_other other

theorem lease_other {name : Bytes} : ¬ Decisive (.queue .leases name) := fun wrong => wrong rfl

theorem run_other_file {owner run : Bytes} {file : RunFile} (first : file ≠ .workflow) (second : file ≠ .record) :
    ¬ Decisive (.run owner run file) := by
  rintro (wrong | wrong)
  · exact first wrong
  · exact second wrong

theorem runDir_keeps (owner run : Bytes) : Keep project id d (ensureRunDir host owner run) :=
  (Keeps.gets _).bind fun _ => (writeFile_other host (run_other_file (by decide) (by decide))).whenever

theorem prepareCiRunDirectory_keeps (owner run : Bytes) :
    Keep project id d (prepareCiRunDirectory host owner run) :=
  (Keeps.ofExcept _).bind fun _ => (Keeps.ofExcept _).bind fun _ => runDir_keeps host owner run

theorem requestCiCancel_keeps (owner run : Bytes) : Keep project id d (requestCiCancel host owner run) := by
  refine (Keeps.ofExcept _).bind fun _ => (Keeps.gets _).bind fun present => ?_
  split
  · exact Keeps.pure _
  · refine (Keeps.reads _).bind fun _ => Keeps.bind ?_ fun _ => Keeps.pure _
    exact (writeFile_other host (run_other_file (by decide) (by decide))).whenever

theorem clearCiCancel_keeps (owner run : Bytes) : Keep project id d (clearCiCancel owner run) :=
  (unlink_other (run_other_file (by decide) (by decide))).whenever

theorem removeAll_keeps (owner run : Bytes) (below : RunFile → Bool)
    (harmless : ∀ file, below file = true → file ≠ .workflow ∧ file ≠ .record) :
    Keep project id d (removeAll owner run below) := by
  intro s h
  simp only [removeAll, wp_bind, wp_gets]
  refine wp_forEach (fun path inside => unlink_other ?_) h
  simp only [List.mem_filter, inRun] at inside
  cases path with
  | queue directory name => cases inside.2
  | run owner' run' file =>
    simp only [Bool.and_eq_true] at inside
    obtain ⟨first, second⟩ := harmless file inside.2.2
    exact run_other_file first second

theorem logsAside_keeps (owner run : Bytes) (attempt : Nat) (h : Keeping project id d s) :
    Keeping project id d (logsAside owner run attempt s) := by
  unfold logsAside
  apply List.foldlRecOn s.paths _ h
  intro t kept path _
  split
  · split
    · unfold Files.rename
      split
      · exact kept
      · exact (kept.remove_other (run_other_file (by simp) (by simp))).put_other (run_other_file (by simp) (by simp))
    · exact kept
  · exact kept

/-- The demand behind a record of the tracked job that ended its run. -/
def Demand.ending (d : Demand) (now : Prop) : Demand := { d with ended := d.ended ∨ now }

/-- The demand once a job was accepted. -/
def Demand.owed (d : Demand) (now : Prop) : Demand := { d with due := d.due ∨ now }

theorem Keeping.under {now : Prop} (h : Keeping project id (d.ending now) s) : Keeping project id d s :=
  h.weaken (fun asked => asked) (fun _ still => still) (fun _ known => known) .inl

theorem Keeping.before {now : Prop} (h : Keeping project id (d.owed now) s) : Keeping project id d s :=
  h.weaken .inl (fun _ still => still) (fun _ known => known) fun asked => asked

/-- What a written record obeys. -/
structure Recordable (project id : Bytes) (run : CiRunRecord) : Prop where
  fits : RunFits run
  roomy : Tracks project id run → ciRunStatusIsActive run.status = true → Roomy run

/-- Only directories of runs differ. -/
def SameFiles (s t : Files) : Prop := ∀ path, (∀ owner run, path ≠ .run owner run .directory) → t.get path = s.get path

theorem ensureRunDir_same_files (owner run : Bytes) :
    (ensureRunDir host owner run).wp (SameFiles s) (fun _ => SameFiles s) (fun _ _ => False) s := by
  have made : SameFiles s (s.put (.run owner run .directory) ⟨[], host.millis⟩) := fun path other =>
    Files.get_put_ne (other owner run)
  simp only [ensureRunDir, wp_bind, wp_gets]
  exact wp_whenever (fun _ => ⟨made, made⟩) fun _ _ _ => rfl

theorem SameFiles.decisive {t : Files} (same : SameFiles s t) :
    ∀ path, Decisive path → t.get path = s.get path := by
  intro path decisive
  apply same
  rintro owner run rfl
  rcases decisive with wrong | wrong <;> cases wrong

/-- A record is written whole or not at all; the tracked one ends its run, or leaves it with a file. -/
theorem writeCiRunRecord_wp {run : CiRunRecord} (good : Recordable project id run) (h : Keeping project id d s)
    (finished : Tracks project id run → ciRunStatusIsActive run.status = true →
      ¬ d.ended ∧ (Ended project id s → FilePresent id s)) :
    (writeCiRunRecord host run).wp (Keeping project id d)
      (fun _ t => (∃ text, runRecordText run = .ok text)
        ∧ Keeping project id (d.ending (Tracks project id run ∧ ciRunStatusIsActive run.status = false)) t)
      (fun _ t => (∃ error, runRecordText run = .error error) ∧ t = s) s := by
  simp only [writeCiRunRecord, wp_bind]
  refine wp_ofExcept (fun text written => ?_) fun error refused => ⟨⟨error, refused⟩, rfl⟩
  rw [wp_bind]
  have step : ∀ t, SameFiles s t → Keeping project id d t := fun t same => h.same same.decisive
  refine wp_mono (wp_and (ensureRunDir_same_files host _ _) (runDir_keeps host _ _ s h))
    (fun _ both => both.2) (fun _ t both => ?_) fun _ t both => ?_
  · obtain ⟨same, kept⟩ := both
    have record : t.get (.run project id .record) = s.get (.run project id .record) := same _ (by simp)
    have next := @Keeping.put_record _ _ _ _ kept run text host.millis written good.fits good.roomy
      (fun mine active => ⟨(finished mine active).1, fun was => ((finished mine active).2 (was.same record.symm)).same
        fun directory _ => same _ (by simp)⟩)
    exact ⟨next.under, ⟨text, written⟩, next⟩
  · exact both.1.elim

theorem writeCiRunRecord_keeps {run : CiRunRecord} (good : Recordable project id run)
    (finished : ∀ t, Keeping project id d t → Tracks project id run →
      ciRunStatusIsActive run.status = true → ¬ d.ended ∧ (Ended project id t → FilePresent id t)) :
    Keep project id d (writeCiRunRecord host run) := by
  intro s h
  refine wp_mono (writeCiRunRecord_wp host good h (finished s h)) (fun _ kept => kept)
    (fun _ _ after => after.2.under) ?_
  rintro _ _ ⟨_, rfl⟩
  exact h

/-- What is asked of a job whose run is ended. -/
structure Plain (project id : Bytes) (job : CiJobRequest) : Prop where
  own : job.job_id = id → job.project_name = project
  ref_short : job.ref.length ≤ 512
  attempt_range : 1 ≤ job.attempt.toNat ∧ job.attempt.toNat ≤ 1000

/-- What is asked of a job that is written again. -/
structure Usual (project id : Bytes) (job : CiJobRequest) : Prop where
  own : job.job_id = id → job.project_name = project
  readable : ReadableJob job
  few : job.runs_on.length ≤ kMaximumCiLabels

theorem Usual.plain {job : CiJobRequest} (usual : Usual project id job) : Plain project id job :=
  ⟨usual.own, usual.readable.ref_short, usual.readable.attempt_range⟩

theorem Usual.ours {job : CiJobRequest} (usual : Usual project id job) : Ours project id job :=
  ⟨usual.own, fun _ => ⟨usual.readable, usual.few⟩⟩

theorem Keeping.usual (h : Keeping project id d s) {directory : Directory} {name : Bytes} {job : CiJobRequest}
    (queued : Queued directory) (read : readJobAt s directory name = some job) :
    name = ini job.job_id ∧ Usual project id job := by
  obtain ⟨named, own, readable, few⟩ := h.ours queued read
  exact ⟨named, own, readable, few⟩

theorem settledRecord_recordable {job : CiJobRequest} {detail : Bytes} {terminal : CiRunStatus}
    (plain : Plain project id job) (finished : ciRunStatusIsActive terminal = false) :
    Recordable project id (settledRecord host s job detail terminal) := by
  refine ⟨?_, fun _ active => ?_⟩
  · exact @settledRecord_fits [jobKey job] s host job detail terminal
      ⟨List.mem_singleton.mpr rfl, plain.ref_short, plain.attempt_range⟩
  · rw [show (settledRecord host s job detail terminal).status = terminal from rfl, finished] at active
    cases active

/-- A job is cancelled: its record has ended before its file goes. -/
theorem cancelQueuedJob_wp {job : CiJobRequest} {detail : Bytes} {terminal : CiRunStatus}
    (h : Keeping project id d s) (plain : Plain project id job) (finished : ciRunStatusIsActive terminal = false) :
    (cancelQueuedJob host job detail terminal).wp (Keeping project id d)
      (fun _ => Keeping project id (d.ending (job.job_id = id))) (fun _ => Keeping project id d) s := by
  simp only [cancelQueuedJob, wp_bind, wp_gets]
  refine wp_mono (prepareCiRunDirectory_keeps host _ _ s h) (fun _ kept => kept) (fun _ t kept => ?_)
    fun _ _ kept => kept
  have good := @settledRecord_recordable project id s host job detail terminal plain finished
  rw [wp_bind]
  refine wp_mono (writeCiRunRecord_wp host good kept fun _ active => ?_) (fun _ kept => kept) (fun _ u after => ?_) ?_
  · rw [show (settledRecord host s job detail terminal).status = terminal from rfl, finished] at active
    cases active
  · have done : Keeping project id (d.ending (job.job_id = id)) u :=
      after.2.weaken (fun asked => asked) (fun _ still => still) (fun _ known => known) fun asked =>
        asked.imp (fun asked => asked) fun mine => ⟨⟨plain.own mine, mine⟩, finished⟩
    have gone := @Keeping.remove_job _ _ _ _ done .spool (ini job.job_id) (.inl rfl)
      (fun mine => .inl (done.ended_kept (.inr (ini_injective mine)))) (by intro wrong; cases wrong)
    exact ⟨gone.under, gone⟩
  · rintro _ _ ⟨_, rfl⟩
    exact kept

theorem cancelQueuedJob_keeps {job : CiJobRequest} {detail : Bytes} {terminal : CiRunStatus}
    (plain : Plain project id job) (finished : ciRunStatusIsActive terminal = false) :
    Keep project id d (cancelQueuedJob host job detail terminal) := fun _ h =>
  wp_mono (cancelQueuedJob_wp host h plain finished) (fun _ kept => kept) (fun _ _ kept => kept.under)
    fun _ _ kept => kept

theorem cancelUnpublished_keeps (request : CiJobRequest) :
    Keep project id d (cancelUnpublished host request) :=
  (Keeps.reads _).bind fun _ => Keeps.forEach fun _ => Keeps.whenever
    ((requestCiCancel_keeps host _ _).bind fun _ => Keeps.pure _)

theorem supersedeJob_keeps {request old : CiJobRequest} {directory : Directory} (mine : Plain project id request)
    (other : Plain project id old) : Keep project id d (supersedeJob host request directory old) := by
  refine Keeps.bind (Keeps.whenever ((requestCiCancel_keeps host _ _).bind fun _ => Keeps.pure _)) fun _ => ?_
  split
  · exact Keeps.whenever (cancelQueuedJob_keeps host mine rfl)
  · split
    · exact Keeps.pure _
    · split
      · exact cancelQueuedJob_keeps host other rfl
      · exact (Keeps.gets _).bind fun _ => Keeps.whenever ((requestCiCancel_keeps host _ _).bind fun _ => Keeps.pure _)

theorem supersedeEntry_keeps {request : CiJobRequest} {directory : Directory} {name : Bytes}
    (queued : Queued directory) (mine : Plain project id request) :
    Keep project id d (supersedeEntry host request directory name) := by
  intro s h
  simp only [supersedeEntry, wp_bind, wp_gets]
  cases read : readJobAt s directory name with
  | none => exact h
  | some old => exact Keeps.whenever (supersedeJob_keeps host mine (h.usual queued read).2.plain) s h

theorem supersedeCiJobs_keeps {request : CiJobRequest} (mine : Plain project id request) :
    Keep project id d (supersedeCiJobs host request) := by
  refine Keeps.whenever (Keeps.bind (Keeps.whenever (cancelUnpublished_keeps host request)) fun _ => ?_)
  intro s h
  refine wp_forEach (fun directory inside => ?_) h
  have queued : Queued directory := by simpa [Queued] using inside
  exact (Keeps.gets _).bind fun _ => Keeps.forEach fun _ => supersedeEntry_keeps host queued mine

/-- A record without steps is within its size limit. -/
theorem runRecordText_small {run : CiRunRecord} (readable : ReadableRun run) (steps : run.steps = [])
    (execution : run.execution = none) : runRecordText run = .ok (serializeRun run) := by
  have id := isValidCiId_length readable.id_valid
  have project := isValidProjectName_length readable.project_valid
  have commit := isValidObjectId_length readable.commit_valid
  have member := validJobMembership_length readable.membership
  have ref := readable.ref_short
  have detail := readable.detail_short
  have runner : run.shownRunner.length ≤ 64 := by
    unfold CiRunRecord.shownRunner
    rcases readable.runner_valid with none | valid
    · rw [none]
      decide
    · split
      · decide
      · exact isValidClientId_length valid
  have status := status_width run.status
  have started := epoch_width run.started_epoch_seconds
  have finished := epoch_width run.finished_epoch_seconds
  have heartbeat := epoch_width run.heartbeat_epoch_seconds
  have attempt := unsigned_width run.attempt
  have none_run : (decimal ([] : List CiStepResult).length).length = 1 := rfl
  have size := serializeRun_length run
  rw [steps, execution] at size
  simp only [executionBytes, List.map_nil, List.sum_nil, none_run] at size
  have bounds : kMaximumCiIdBytes = 64 ∧ kMaximumCiArtifactNameBytes = 64 ∧ kMaximumCiDetailBytes = 512
      ∧ kMaximumCiRunRecordBytes = 65536 := by decide
  simp only [runRecordText, bind_ok, failIf, rejectIf_ok, pure_ok, not_not, Nat.not_lt]
  refine ⟨(), ⟨readable.membership, readable.id_valid, readable.project_valid, readable.commit_valid⟩, (),
    readable.detail_short, (), ?_, trivial⟩
  omega

theorem queuedRecord_readable {job : CiJobRequest} (readable : ReadableJob job) : ReadableRun (queuedRecord job) :=
  ⟨readable.id_valid, readable.project_valid, readable.commit_valid, readable.membership, readable.ref_short,
    Nat.zero_le _, .inl rfl, readable.attempt_range, Nat.zero_le _, fun _ inside => absurd inside List.not_mem_nil⟩

theorem readable_roomy {run : CiRunRecord} (readable : ReadableRun run) (steps : run.steps = [])
    (execution : run.execution = none) : Roomy run := fun _ _ short =>
  ⟨_, runRecordText_small ⟨readable.id_valid, readable.project_valid, readable.commit_valid, readable.membership,
    readable.ref_short, short, readable.runner_valid, readable.attempt_range, readable.steps_few,
    readable.names_short⟩ steps execution⟩

theorem queuedRecord_recordable {job : CiJobRequest} {detail : Bytes} (readable : ReadableJob job) :
    Recordable project id { queuedRecord job with detail } := by
  refine ⟨?_, fun _ _ now text => readable_roomy (queuedRecord_readable readable) rfl rfl now text⟩
  exact queuedRecord_fits readable.ref_short readable.attempt_range

/-- While the job is claimed its run may return to Pending. -/
theorem resetRunForRequeue_keeps {job : CiJobRequest} {lost_attempt : UInt32} {detail : Bytes}
    (usual : Usual project id job) (holds : ∀ files, d.work files → job.job_id = id → (files (ini id)).isSome)
    (open_run : ¬ d.ended) (h : Keeping project id d s) :
    (resetRunForRequeue host job lost_attempt detail).wp (Keeping project id d) (fun _ => Keeping project id d)
      (fun _ _ => False) s := by
  refine Keeps.bestEffort ?_ h
  refine (prepareCiRunDirectory_keeps host _ _).bind fun _ => ?_
  refine (removeAll_keeps _ _ _ fun file below => ?_).bind fun _ => ?_
  · constructor <;> (rintro rfl; cases below)
  refine (Keeps.modify fun t kept =>
    @logsAside_keeps project id t d job.project_name job.job_id lost_attempt.toNat kept).bind fun _ => ?_
  refine (removeAll_keeps _ _ _ fun file below => ?_).bind fun _ => ?_
  · constructor <;> (rintro rfl; cases below)
  refine (removeAll_keeps _ _ _ fun file below => ?_).bind fun _ => ?_
  · constructor <;> (rintro rfl; cases below)
  refine writeCiRunRecord_keeps host (queuedRecord_recordable usual.readable) fun t kept mine _ =>
    ⟨open_run, fun _ => ?_⟩
  exact ⟨.working, .inr rfl, holds _ kept.work_kept mine.2⟩

/-- The record of a job given up can be written, unless its run has ended before. -/
theorem gaveUpRecord_written {job : CiJobRequest} {runner : Bytes} (h : Keeping project id d s)
    (readable : ReadableJob job) :
    RunFits (gaveUpRecord host s job runner) ∧ (job.project_name = project → job.job_id = id →
      Tracks project id (gaveUpRecord host s job runner)
        ∧ (Ended project id s ∨ ∃ text, runRecordText (gaveUpRecord host s job runner) = .ok text)) := by
  have short : ((gaveUpText runner job.attempt).take kMaximumCiDetailBytes).length ≤ kMaximumCiDetailBytes := by
    rw [List.length_take]
    exact Nat.min_le_left _ _
  have first : 1 ≤ (1 : UInt32).toNat ∧ (1 : UInt32).toNat ≤ 1000 := by decide
  cases loaded : loadCiRun s job.project_name job.job_id with
  | none =>
    have once : ReadableJob { job with attempt := 1 } :=
      ⟨readable.id_valid, readable.project_valid, readable.client_valid, readable.commit_valid,
        readable.dependencies_valid, readable.ref_short, first, readable.labels_valid, readable.labels_few⟩
    have shape : gaveUpRecord host s job runner =
        { queuedRecord { job with attempt := 1 } with
          status := .error, finished_epoch_seconds := host.now, heartbeat_epoch_seconds := host.now,
          detail := (gaveUpText runner job.attempt).take kMaximumCiDetailBytes } := by
      rw [gaveUpRecord, loaded]
      rfl
    rw [shape]
    refine ⟨queuedRecord_fits once.ref_short once.attempt_range, ?_⟩
    rintro rfl rfl
    exact ⟨⟨rfl, rfl⟩, .inr (readable_roomy (queuedRecord_readable once) rfl rfl _ _ short)⟩
  | some run =>
    have shape : gaveUpRecord host s job runner =
        { run with status := .error, finished_epoch_seconds := host.now, heartbeat_epoch_seconds := host.now,
                   detail := (gaveUpText runner job.attempt).take kMaximumCiDetailBytes } := by
      rw [gaveUpRecord, loaded]
      rfl
    have old := loaded_readable loaded
    rw [shape]
    refine ⟨⟨old.ref_short, old.attempt_range, old.runner_valid, old.steps_few, old.names_short⟩, ?_⟩
    rintro rfl rfl
    refine ⟨h.record _ _ run loaded, ?_⟩
    cases active : ciRunStatusIsActive run.status with
    | false => exact .inl ⟨run, loaded, active⟩
    | true => exact .inr (h.roomy run loaded active _ _ short)

/-- What is known of the claimed jobs stays known when one goes, or is set aside. -/
structure Demand.Loose (d : Demand) : Prop where
  remove : ∀ s name, d.work (working s) → d.work (working (s.remove (.queue .working name)))
  aside : ∀ s name, readJobAt s .working name = none → d.work (working s) →
    d.work (working (s.rename (.queue .working name) (.queue .working (name ++ ascii ".rejected"))))

/-- A job past its last attempt ends its run; another one is queued before its claim goes. -/
theorem requeueJob_keeps {job : CiJobRequest} {runner : Bytes} {enforce_limit : Bool} {max_attempts : UInt32}
    (h : Keeping project id d s) (loose : d.Loose) (open_run : ¬ d.ended) (usual : Usual project id job)
    (present : job.job_id = id → (s.get (.queue .working (ini id))).isSome)
    (early : ¬ (enforce_limit = true ∧ max_attempts ≤ job.attempt) → job.attempt.toNat < 1000) :
    (requeueJob host job.job_id job runner enforce_limit max_attempts).wp (Keeping project id d)
      (fun _ => Keeping project id d) (fun _ => Keeping project id d) s := by
  have gone : ∀ {t : Files}, Keeping project id d t →
      (job.job_id = id → Ended project id t ∨ (t.get (.queue .spool (ini id))).isSome) →
      Keeping project id d (t.remove (.queue .working (ini job.job_id))) := by
    intro t kept elsewhere
    refine kept.remove_job (.inr rfl) (fun named => ?_) fun _ => loose.remove _ _ kept.work_kept
    exact (elsewhere (ini_injective named)).imp_right fun queued => ⟨.spool, .inl rfl, by decide, queued⟩
  unfold requeueJob
  split
  · obtain ⟨fits, own⟩ := @gaveUpRecord_written project id s d host job runner h usual.readable
    have good : Recordable project id (gaveUpRecord host s job runner) := ⟨fits, fun _ active => by cases active⟩
    rw [wp_bind, wp_bestEffort]
    simp only [wp_bind, wp_gets]
    refine wp_mono (writeCiRunRecord_wp host good h fun _ active => by cases active) (fun _ kept => kept)
      (fun _ t after => ?_) fun _ t refused => ?_
    · have finished : job.job_id = id → Ended project id t := fun mine =>
        after.2.ended_kept (.inr ⟨(own (usual.own mine) mine).1, rfl⟩)
      have cleared := gone after.2.under fun mine => .inl (finished mine)
      exact ⟨cleared, cleared.remove_other lease_other, cleared.remove_other lease_other⟩
    · obtain ⟨⟨error, refused⟩, rfl⟩ := refused
      have finished : job.job_id = id → Ended project id t := by
        intro mine
        obtain ⟨_, ended | ⟨text, written⟩⟩ := own (usual.own mine) mine
        · exact ended
        · rw [refused] at written
          cases written
      have cleared := gone h fun mine => .inl (finished mine)
      exact ⟨cleared, cleared.remove_other lease_other, cleared.remove_other lease_other⟩
  · rename_i more
    have early := early more
    let kept_here : Demand :=
      { d with work := fun files => d.work files ∧ (job.job_id = id → (files (ini id)).isSome) }
    have held : Keeping project id kept_here s := { h with work_kept := ⟨h.work_kept, present⟩ }
    have free : ∀ {t}, Keeping project id kept_here t → Keeping project id d t := fun kept =>
      kept.weaken (fun asked => asked) (fun _ still => still) (fun _ known => known.1) fun asked => asked
    have next : Usual project id { job with attempt := job.attempt + 1 } := by
      have readable := usual.readable
      have sum : (job.attempt + 1).toNat = job.attempt.toNat + 1 := by
        rw [UInt32.toNat_add]
        have one : (1 : UInt32).toNat = 1 := rfl
        exact Nat.mod_eq_of_lt (by omega)
      exact ⟨usual.own, ⟨readable.id_valid, readable.project_valid, readable.client_valid, readable.commit_valid,
        readable.dependencies_valid, readable.ref_short, by rw [sum]; omega, readable.labels_valid,
        readable.labels_few⟩, usual.few⟩
    simp only [wp_bind]
    refine wp_mono (@resetRunForRequeue_keeps project id s kept_here host _ _ _ next (fun _ known => known.2)
      open_run held) (fun _ kept => free kept) (fun _ t kept => ?_) fun _ _ => False.elim
    have queued := @Keeping.put_job _ _ _ _ (free kept) { job with attempt := job.attempt + 1 } host.millis next.ours
    have spooled := @Keeping.before _ _ _ d (job.job_id = id) queued
    have cleared := gone spooled fun mine => .inr (by
      rw [← mine, Files.get_put_self]
      rfl)
    exact ⟨spooled, cleared, cleared.remove_other lease_other, cleared.remove_other lease_other⟩

/-- A job is put back, cancelled or given up; a file that nothing parses is set aside. -/
theorem requeueLocked_keeps {job_id runner : Bytes} {enforce_limit : Bool} {max_attempts : UInt32}
    (h : Keeping project id d s) (loose : d.Loose) (open_run : ¬ d.ended)
    (early : ∀ job, readJobAt s .working (ini job_id) = some job →
      ¬ (enforce_limit = true ∧ max_attempts ≤ job.attempt) → job.attempt.toNat < 1000) :
    (requeueLocked host job_id runner enforce_limit max_attempts).wp (Keeping project id d)
      (fun _ => Keeping project id d) (fun _ => Keeping project id d) s := by
  simp only [requeueLocked, wp_bind, wp_gets]
  cases read : readJobAt s .working (ini job_id) with
  | none =>
    have aside := h.aside read (loose.aside _ _ read h.work_kept)
    exact ⟨aside, aside.remove_other lease_other, aside.remove_other lease_other⟩
  | some job =>
    obtain ⟨named, usual⟩ := h.usual (.inr rfl) read
    obtain rfl := ini_injective named
    have present : job.job_id = id → (s.get (.queue .working (ini id))).isSome := by
      rintro rfl
      obtain ⟨_, there, _⟩ := Files.readAs_some.mp read
      rw [there]
      rfl
    simp only [wp_bind, wp_gets]
    split
    · next settled =>
      -- Each copy goes behind the terminal record.
      have finished : job.job_id = id → Ended project id s := by
        intro mine
        have done := settled.2
        unfold runSettled at done
        rw [usual.own mine, mine] at done
        split at done
        · next run loaded => exact ⟨run, loaded, by simpa using done⟩
        · cases done
      have known : Keeping project id (d.ending (job.job_id = id)) s :=
        { h with ended_kept := fun asked => asked.elim h.ended_kept finished }
      rw [wp_bind]
      refine wp_mono (wp_forEach (fun directory inside t kept => ?_) known) (fun _ kept => kept)
        (fun _ _ kept => Keeping.under kept) fun _ _ kept => kept
      by_cases queued : Queued directory
      · have cleared := @Keeping.remove_job _ _ _ _ kept directory (ini job.job_id) queued
          (fun mine => .inl (kept.ended_kept (.inr (ini_injective mine))))
          (by rintro rfl; exact loose.remove _ _ kept.work_kept)
        exact ⟨cleared.under, cleared⟩
      · have lease : directory = .leases := by
          simp only [Queued, List.mem_cons, List.not_mem_nil, or_false] at inside queued
          tauto
        subst lease
        have cleared := @Keeping.remove_other _ _ _ _ kept (.queue .leases (ini job.job_id)) lease_other
        exact ⟨cleared.under, cleared⟩
    · split
      · rw [wp_bind]
        refine wp_mono (cancelQueuedJob_wp host h usual.plain rfl) (fun _ kept => kept) (fun _ t kept => ?_)
          fun _ _ kept => kept
        have cleared := @Keeping.remove_job _ _ _ _ kept .working (ini job.job_id) (.inr rfl)
          (fun mine => .inl (kept.ended_kept (.inr (ini_injective mine))))
          (fun _ => loose.remove _ _ kept.work_kept)
        have unleased := @Keeping.remove_other _ _ _ _ cleared.under (.queue .leases (ini job.job_id)) lease_other
        refine ⟨cleared.under, unleased, ?_⟩
        exact ((clearCiCancel_keeps _ _).bind fun _ => Keeps.pure _) _ unleased
      · exact requeueJob_keeps host h loose open_run usual present (early job read)

end

end CkGit.Store
