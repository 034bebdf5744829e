import CkGit.Store.RoundTrip
import CkGit.Workflow.Graph

/-!
Which workflow groups validateWorkflowGroup (src/common/ci_store.cpp) accepts:
those whose well-formed children need siblings, without a cycle. The group that
enqueueCiWorkflow (src/common/ci_runner.cpp) builds is one of them.
-/
namespace CkGit.Store
open CkGit.Base CkGit.Ci
open CkGit.Workflow (CiWorkflow CiJob Push YamlNode check_ok)
open Relation (TransGen)

/-- A top-level parent with its own children, each with an id and a name of its own. -/
structure WellFormed (group : WorkflowGroup) : Prop where
  parent : ∃ read, parseJob (serializeJob group.parent) = .ok read
  top : group.parent.parent_run_id = []
  some_child : group.children ≠ []
  few : group.children.length ≤ kMaximumCiJobs
  children : ∀ child ∈ group.children, ∃ read, parseJob (serializeJob child) = .ok read
  consistent : ∀ child ∈ group.children, ¬ inconsistentChild group.parent child [] []
  ids : (group.children.map (·.job_id)).Nodup
  names : (group.children.map (·.workflow_job)).Nodup

/-- The child of one id needs the other id. -/
def Needs (children : List CiJobRequest) (id other : Bytes) : Prop :=
  ∃ child ∈ children, child.job_id = id ∧ other ∈ child.needs

def Siblings (children : List CiJobRequest) : Prop :=
  ∀ child ∈ children, ∀ id ∈ child.needs, id ∈ children.map (·.job_id)

def graphOf (children : List CiJobRequest) : Kahn.Graph Bytes := children.map fun child => (child.job_id, child.needs)

section
variable {children : List CiJobRequest} {group : WorkflowGroup}

theorem nodes_graphOf (children : List CiJobRequest) : Kahn.nodes (graphOf children) = children.map (·.job_id) := by
  simp [Kahn.nodes, graphOf]

theorem needs_graphOf (children : List CiJobRequest) : Kahn.Needs (graphOf children) = Needs children := by
  funext id other
  simp [Kahn.Needs, Needs, graphOf]

theorem readyPass_eq (children : List CiJobRequest) (ready : List Bytes) :
    readyPass children ready = Kahn.round (graphOf children) ready := by
  have visited : ∀ (ready : List Bytes) (child : CiJobRequest),
      (if child.job_id ∉ ready ∧ ∀ id ∈ child.needs, id ∈ ready then child.job_id :: ready else ready)
        = Kahn.visit ready (child.job_id, child.needs) := by
    intro ready child
    unfold Kahn.visit
    by_cases becomes : child.job_id ∉ ready ∧ ∀ id ∈ child.needs, id ∈ ready
    · rw [if_pos becomes, if_pos becomes]
    · rw [if_neg becomes, if_neg becomes]
  rw [readyPass, Kahn.round, graphOf, List.foldl_map]
  simp only [visited]

theorem orderly_graphOf : Kahn.Orderly (graphOf children)
    ↔ Siblings children ∧ ∀ id, ¬ TransGen (Needs children) id id := by
  rw [← needs_graphOf]
  constructor
  · intro orderly
    refine ⟨fun child member id need => ?_, orderly.acyclic⟩
    rw [← nodes_graphOf]
    exact orderly.closed _ (List.mem_map_of_mem member) id need
  · rintro ⟨siblings, acyclic⟩
    refine ⟨fun entry member id need => ?_, acyclic⟩
    obtain ⟨child, own, rfl⟩ := List.mem_map.mp member
    rw [nodes_graphOf]
    exact siblings child own id need

theorem dependencyOrder_iff (passes : Nat) {ready : List Bytes} (valid : Kahn.Valid (graphOf children) ready) :
    dependencyOrder children passes ready = .ok () ↔ Kahn.complete (graphOf children) passes ready = true := by
  have size : (graphOf children).length = children.length := List.length_map _
  induction passes generalizing ready with
  | zero =>
    have few := valid.length_le
    rw [size] at few
    unfold dependencyOrder
    rw [Kahn.complete, size, decide_eq_true_eq]
    split
    · next full => exact ⟨fun _ => full.ge, fun _ => rfl⟩
    · next short => exact ⟨fun no => (by cases no), fun full => absurd (by omega) short⟩
  | succ passes ih =>
    have few := valid.length_le
    rw [size] at few
    unfold dependencyOrder
    simp only [Kahn.complete, size, readyPass_eq]
    split
    · next full =>
      rw [if_neg (by omega : ¬ ready.length < children.length)]
      simp
    · next short =>
      rw [if_pos (by omega : ready.length < children.length)]
      split
      · next still => exact ⟨fun no => (by cases no), fun no => (Bool.false_ne_true no).elim⟩
      · next grows => exact ih valid.round

theorem inconsistentChild_iff {parent child : CiJobRequest} {ids names : List Bytes} :
    ¬ inconsistentChild parent child ids names
      ↔ ¬ inconsistentChild parent child [] [] ∧ child.job_id ∉ ids ∧ child.workflow_job ∉ names := by
  unfold inconsistentChild
  simp only [List.not_mem_nil]
  tauto

theorem checkChildren_iff {parent : CiJobRequest} {ids names : List Bytes} :
    checkChildren parent children ids names = .ok ()
      ↔ (∀ child ∈ children, ∃ read, parseJob (serializeJob child) = .ok read)
        ∧ (∀ child ∈ children, ¬ inconsistentChild parent child [] [])
        ∧ (∀ child ∈ children, child.job_id ∉ ids ∧ child.workflow_job ∉ names)
        ∧ (children.map (·.job_id)).Nodup ∧ (children.map (·.workflow_job)).Nodup := by
  induction children generalizing ids names with
  | nil => simp [checkChildren]
  | cons child rest ih =>
    have apart : (∀ other ∈ rest, other.job_id ∉ child.job_id :: ids ∧ other.workflow_job ∉ child.workflow_job :: names)
        ↔ child.job_id ∉ rest.map (·.job_id) ∧ child.workflow_job ∉ rest.map (·.workflow_job)
          ∧ ∀ other ∈ rest, other.job_id ∉ ids ∧ other.workflow_job ∉ names := by
      simp only [List.mem_cons, not_or, List.mem_map, not_exists, not_and]
      constructor
      · exact fun all => ⟨fun other member => (all other member).1.1, fun other member => (all other member).2.1,
          fun other member => ⟨(all other member).1.2, (all other member).2.2⟩⟩
      · rintro ⟨ids, names, all⟩ other member
        exact ⟨⟨ids other member, (all other member).1⟩, names other member, (all other member).2⟩
    simp only [checkChildren, bind_ok, failIf, rejectIf_ok, ih, @inconsistentChild_iff parent child ids names, apart,
      List.forall_mem_cons, List.map_cons, List.nodup_cons, exists_const, exists_and_right]
    tauto

/-- A group is accepted exactly when it is well formed and its needs are siblings without a cycle. -/
theorem validateWorkflowGroup_iff : validateWorkflowGroup group = .ok ()
    ↔ WellFormed group ∧ Siblings group.children ∧ ∀ id, ¬ TransGen (Needs group.children) id id := by
  have order : (group.children.map (·.job_id)).Nodup →
      (dependencyOrder group.children group.children.length [] = .ok ()
        ↔ Siblings group.children ∧ ∀ id, ¬ TransGen (Needs group.children) id id) := fun unique => by
    rw [dependencyOrder_iff _ (Kahn.valid_nil _), ← orderly_graphOf]
    refine Kahn.complete_iff (nodes_graphOf group.children ▸ unique) (Kahn.valid_nil _) ?_
    simp [graphOf]
  have siblings : (¬ ∃ child ∈ group.children, ∃ dependency ∈ child.needs,
      dependency ∉ group.children.map (·.job_id)) ↔ Siblings group.children := by
    simp only [Siblings, not_exists, not_and, not_not]
  rw [validateWorkflowGroup, bind_ok]
  simp only [check_ok, failIf, rejectIf_ok, not_or, not_not, List.isEmpty_iff, siblings, checkChildren_iff,
    List.not_mem_nil, not_false_eq_true, and_self, implies_true, true_and, Nat.not_lt]
  constructor
  · rintro ⟨read, parent, ⟨top, some_child, few⟩, ⟨children, consistent, ids, names⟩, needs, ordered⟩
    exact ⟨⟨⟨read, parent⟩, top, some_child, few, children, consistent, ids, names⟩, needs, ((order ids).mp ordered).2⟩
  · rintro ⟨formed, needs, acyclic⟩
    obtain ⟨read, parent⟩ := formed.parent
    exact ⟨read, parent, ⟨formed.top, formed.some_child, formed.few⟩,
      ⟨formed.children, formed.consistent, formed.ids, formed.names⟩, needs, (order formed.ids).mpr ⟨needs, acyclic⟩⟩

variable {root : YamlNode} {workflow : CiWorkflow} {push : Push}

/-- The group that enqueueCiWorkflow hands over. The parser has made sure that every need has an id. -/
def workflowGroup (push : Push) (workflow : CiWorkflow) : WorkflowGroup where
  parent := push.parent workflow
  children := workflow.jobs.map (push.child workflow)

/-- A ref the hook lets through, and the ids apart. -/
structure Fresh (push : Push) (workflow : CiWorkflow) : Prop where
  ref_short : push.ref.length ≤ 512
  apart : ∀ one ∈ workflow.jobs, ∀ two ∈ workflow.jobs, push.child_id one.name = push.child_id two.name →
    one.name = two.name

theorem parent_readable (fresh : Fresh push workflow) (accepted : Workflow.interpret root = .ok workflow) :
    ReadableJob (push.parent workflow) := by
  have labels := (Workflow.interpret_bounded accepted).labels_bounded
  obtain ⟨id, project, commit, client⟩ := push.valid
  have first : 1 ≤ (1 : UInt32).toNat ∧ (1 : UInt32).toNat ≤ 1000 := by decide
  exact ⟨id, project, client, commit, rfl, fresh.ref_short, first, labels.2, labels.sortedUnique.1⟩

/-- What the fields of an accepted workflow say of each job. -/
theorem accepted_job (accepted : Workflow.interpret root = .ok workflow) {job : CiJob} (member : job ∈ workflow.jobs) :
    Workflow.BoundedLabels job.runs_on ∧ job.needs.length ≤ kMaximumCiJobs ∧ job.needs.Nodup := by
  obtain ⟨_, _, _, _, _, _, _, _, _, _, _, _, _, _, items, _, _, _, _, described⟩ :=
    (Workflow.interpret_rules accepted).described
  obtain ⟨item, read⟩ := Workflow.described_job described job member
  exact Workflow.interpretJob_needs read

theorem child_readable (fresh : Fresh push workflow) (accepted : Workflow.interpret root = .ok workflow)
    (orderly : Workflow.Orderly workflow) {job : CiJob} (member : job ∈ workflow.jobs) :
    ReadableJob (push.child workflow job) := by
  obtain ⟨id, project, commit, client⟩ := push.valid
  obtain ⟨labels, few, once⟩ := accepted_job accepted member
  have name := ((Workflow.interpret_bounded accepted).jobs_bounded job member).name_valid
  have first : 1 ≤ (1 : UInt32).toNat ∧ (1 : UInt32).toNat ≤ 1000 := by decide
  have named : ∀ need ∈ job.needs, ∃ other ∈ workflow.jobs, other.name = need := fun need inside =>
    List.mem_map.mp (orderly.others job member need inside).2
  have needs : ∀ id ∈ job.needs.map push.child_id, isValidCiId id ∧ id ≠ push.child_id job.name ∧ id ≠ push.job_id := by
    intro id inside
    obtain ⟨need, needed, rfl⟩ := List.mem_map.mp inside
    obtain ⟨other, own, rfl⟩ := named need needed
    refine ⟨(push.children_valid _).1, fun same => ?_, (push.children_valid _).2⟩
    exact (orderly.others job member _ needed).1 (fresh.apart other own job member same)
  have ids_once : (job.needs.map push.child_id).Nodup := by
    refine once.map_on fun one first two second same => ?_
    obtain ⟨a, own, rfl⟩ := named one first
    obtain ⟨b, own', rfl⟩ := named two second
    exact fresh.apart a own b own' same
  have membership : validJobMembership (push.child_id job.name) push.job_id job.name = true := by
    have other := (push.children_valid job.name).2
    simp only [validJobMembership, id, bne_iff_ne.mpr other.symm, Bool.true_and, Bool.or_eq_true]
    exact .inr name
  have valid : validDependencies (push.child workflow job) = true := by
    simp only [validDependencies, Push.child, Push.parent, membership, Bool.true_and, List.length_map, few, ids_once,
      decide_true, Bool.and_true, Bool.and_eq_true, List.all_eq_true, bne_iff_ne]
    exact ⟨⟨rfl, by simp [List.isEmpty_iff.not.mpr (isValidCiId_nonempty id)]⟩, fun id inside =>
      ⟨⟨(needs id inside).1, (needs id inside).2.1⟩, (needs id inside).2.2⟩⟩
  exact ⟨(push.children_valid _).1, project, client, commit, valid, fresh.ref_short, first, labels.2,
    labels.sortedUnique.1⟩

/-- The group of an accepted workflow is well formed. -/
theorem workflowGroup_formed (fresh : Fresh push workflow) (accepted : Workflow.interpret root = .ok workflow)
    (orderly : Workflow.Orderly workflow) : WellFormed (workflowGroup push workflow) := by
  have bounded := Workflow.interpret_bounded accepted
  have ids : ((workflow.jobs.map CiJob.name).map push.child_id).Nodup := by
    refine orderly.unique.map_on fun one first two second same => ?_
    obtain ⟨a, own, rfl⟩ := List.mem_map.mp first
    obtain ⟨b, own', rfl⟩ := List.mem_map.mp second
    exact fresh.apart a own b own' same
  refine ⟨⟨_, parseJob_serializeJob (parent_readable fresh accepted)⟩, rfl, ?_, ?_, ?_, ?_, ?_, ?_⟩
  · exact fun none => bounded.jobs_nonempty (List.map_eq_nil_iff.mp none)
  · exact (List.length_map _).symm ▸ bounded.jobs_few
  · intro child member
    obtain ⟨job, own, rfl⟩ := List.mem_map.mp member
    exact ⟨_, parseJob_serializeJob (child_readable fresh accepted orderly own)⟩
  · intro child member
    obtain ⟨job, own, rfl⟩ := List.mem_map.mp member
    simp [inconsistentChild, workflowGroup, Push.child, Push.parent]
  · rw [workflowGroup, List.map_map]
    rwa [List.map_map] at ids
  · rw [workflowGroup, List.map_map]
    exact orderly.unique

/-- Jobs that only need grounded jobs become children that only need grounded children. -/
theorem grounded_child {name : Bytes} (grounded : Kahn.Grounded (Workflow.graphOf workflow.jobs) name) :
    Kahn.Grounded (graphOf (workflowGroup push workflow).children) (push.child_id name) := by
  induction grounded with
  | intro entry member _ ih =>
    obtain ⟨job, own, rfl⟩ := List.mem_map.mp member
    refine .intro (push.child_id job.name, job.needs.map push.child_id) ?_ fun need inside => ?_
    · exact List.mem_map.mpr ⟨_, List.mem_map_of_mem own, rfl⟩
    · obtain ⟨name, needed, rfl⟩ := List.mem_map.mp inside
      exact ih name needed

theorem workflowGroup_accepted (fresh : Fresh push workflow) (accepted : Workflow.interpret root = .ok workflow) :
    validateWorkflowGroup (workflowGroup push workflow) = .ok () := by
  have orderly := ((Workflow.interpret_iff (Workflow.interpret_rules accepted)).mp accepted).1
  have formed := workflowGroup_formed fresh accepted orderly
  refine validateWorkflowGroup_iff.mpr ⟨formed, orderly_graphOf.mp ?_⟩
  refine Kahn.orderly_of_grounded (nodes_graphOf _ ▸ formed.ids) fun id member => ?_
  rw [nodes_graphOf, workflowGroup, List.map_map] at member
  obtain ⟨job, own, rfl⟩ := List.mem_map.mp member
  refine grounded_child (Kahn.grounded_of_orderly (Workflow.Orderly.graph orderly) job.name ?_)
  rw [Workflow.nodes_graphOf]
  exact List.mem_map_of_mem own

theorem completed_rounds (jobs : List CiJob) (count : Nat) :
    (Workflow.completeRound jobs)^[count] [] = Kahn.rounds (Workflow.graphOf jobs) count := by
  induction count with
  | zero => rfl
  | succ count ih => rw [Function.iterate_succ_apply', ih, Workflow.completeRound_eq, Kahn.rounds]

theorem ready_passes (children : List CiJobRequest) (count : Nat) :
    (readyPass children)^[count] [] = Kahn.rounds (graphOf children) count := by
  induction count with
  | zero => rfl
  | succ count ih => rw [Function.iterate_succ_apply', ih, readyPass_eq, Kahn.rounds]

/-- The loop of the parser ends: every name is completed, or a round adds none. -/
theorem completion_ends (jobs : List CiJob) : ∃ count ≤ jobs.length,
    jobs.length ≤ ((Workflow.completeRound jobs)^[count] []).length
      ∨ ((Workflow.completeRound jobs)^[count + 1] []).length = ((Workflow.completeRound jobs)^[count] []).length := by
  obtain ⟨count, few, ends⟩ := Kahn.rounds_end (Workflow.graphOf jobs)
  rw [Workflow.graphOf, List.length_map] at few
  refine ⟨count, few, ?_⟩
  rw [completed_rounds, completed_rounds, Kahn.rounds]
  simp only [Kahn.GoesOn, Workflow.graphOf, List.length_map, not_and, not_not] at ends
  by_cases all : jobs.length ≤ (Kahn.rounds (Workflow.graphOf jobs) count).length
  · exact .inl all
  · exact .inr (ends (Nat.not_le.mp all))

/-- The loop of the store ends: every child is ready, or a pass adds none. -/
theorem readiness_ends (children : List CiJobRequest) : ∃ count ≤ children.length,
    ((readyPass children)^[count] []).length = children.length
      ∨ ((readyPass children)^[count + 1] []).length = ((readyPass children)^[count] []).length := by
  obtain ⟨count, few, ends⟩ := Kahn.rounds_end (graphOf children)
  have most := (Kahn.valid_rounds (graphOf children) count).length_le
  rw [graphOf, List.length_map] at few most
  refine ⟨count, few, ?_⟩
  rw [ready_passes, ready_passes, Kahn.rounds]
  simp only [Kahn.GoesOn, graphOf, List.length_map, not_and, not_not] at ends
  by_cases all : children.length ≤ (Kahn.rounds (graphOf children) count).length
  · exact .inl (Nat.le_antisymm most all)
  · exact .inr (ends (Nat.not_le.mp all))

end

/-- The parser accepts the trees whose jobs are orderly, the store accepts what is built from them and
every well-formed group of siblings without a cycle, and both loops end. -/
theorem workflow_graphs :
    (∀ root workflow, Workflow.FieldRules root workflow → ∀ read,
      (Workflow.interpret root = .ok read ↔ Workflow.Orderly workflow ∧ read = workflow))
    ∧ (∀ root workflow push, Workflow.interpret root = .ok workflow → workflow.version = 2 → Fresh push workflow →
      validateWorkflowGroup (workflowGroup push workflow) = .ok ())
    ∧ (∀ group, WellFormed group → (validateWorkflowGroup group = .ok ()
      ↔ Siblings group.children ∧ ∀ id, ¬ TransGen (Needs group.children) id id))
    ∧ (∀ jobs, ∃ count ≤ jobs.length, jobs.length ≤ ((Workflow.completeRound jobs)^[count] []).length
      ∨ ((Workflow.completeRound jobs)^[count + 1] []).length = ((Workflow.completeRound jobs)^[count] []).length)
    ∧ ∀ children, ∃ count ≤ children.length, ((readyPass children)^[count] []).length = children.length
      ∨ ((readyPass children)^[count + 1] []).length = ((readyPass children)^[count] []).length := by
  refine ⟨fun root workflow rules read => Workflow.interpret_iff rules, ?_, ?_, completion_ends, readiness_ends⟩
  · exact fun root workflow push accepted _ fresh => workflowGroup_accepted fresh accepted
  · exact fun group formed => validateWorkflowGroup_iff.trans (and_iff_right formed)

def twoJobs : YamlNode :=
  .mapping [(ascii "version", .scalar (ascii "2") 1),
    (ascii "jobs", .sequence
      [.mapping [(ascii "name", .scalar (ascii "test") 3), (ascii "runs_on", .scalar (ascii "linux") 4),
          (ascii "needs", .sequence [.scalar (ascii "build") 5] 5),
          (ascii "steps", .sequence [.mapping [(ascii "run", .scalar (ascii "make test") 7)] 7] 6)] 3,
        .mapping [(ascii "name", .scalar (ascii "build") 8), (ascii "runs_on", .scalar (ascii "linux") 9),
          (ascii "steps", .sequence [.mapping [(ascii "run", .scalar (ascii "make") 11)] 11] 10)] 8] 2)] 1

def twoJobsRead : CiWorkflow where
  version := 2
  tags := [ascii "*"]
  triggers_default_branch := true
  jobs :=
    [{ name := ascii "test", steps := [{ script := ascii "make test" }], runs_on := [ascii "linux"],
       needs := [ascii "build"] },
      { name := ascii "build", steps := [{ script := ascii "make" }], runs_on := [ascii "linux"] }]

def twoJobsPush : Push where
  job_id := ascii "run-1"
  project_name := ascii "kernel"
  ref := ascii "refs/heads/main"
  commit_id := List.replicate 40 (48 : UInt8)
  client_id := ascii "laptop"
  child_id name := if name = ascii "build" then ascii "run-2" else ascii "run-3"
  valid := by decide
  children_valid name := by split <;> decide

private theorem twoJobs_read : Workflow.interpret twoJobs = .ok twoJobsRead := by
  have read : (Workflow.interpret twoJobs).toOption = some twoJobsRead := by decide +kernel
  cases result : Workflow.interpret twoJobs with
  | ok workflow =>
    rw [result] at read
    exact congrArg Except.ok (Option.some.inj read)
  | error error =>
    rw [result] at read
    cases read

private theorem twoJobs_fresh : Fresh twoJobsPush twoJobsRead := ⟨by decide, by decide⟩

theorem workflow_graphs_two_jobs :
    validateWorkflowGroup (workflowGroup twoJobsPush twoJobsRead) = .ok () ∧ Workflow.Orderly twoJobsRead :=
  ⟨workflow_graphs.2.1 twoJobs twoJobsRead twoJobsPush twoJobs_read rfl twoJobs_fresh,
    ((workflow_graphs.1 twoJobs twoJobsRead (Workflow.interpret_rules twoJobs_read) twoJobsRead).mp twoJobs_read).1⟩

end CkGit.Store
