import CkGit.Base.Kahn
import CkGit.Workflow.Bounds

/-!
Which workflows `interpret` accepts: those whose fields meet the rules and whose
jobs have names of their own and needs without a cycle.
-/
namespace CkGit.Workflow
open CkGit.Base CkGit.Ci
open Relation (TransGen)

/-- The fields of a tree, with the workflow they describe. Two jobs may have one name. -/
structure FieldRules (root : YamlNode) (workflow : CiWorkflow) : Prop where
  described : ∃ entries, requireMapping root "the workflow to be a mapping" = .ok entries
    ∧ rejectUnknownKeys entries root.line ["version", "on", "env", "sisters", "checkout", "runs_on", "cache", "jobs",
      "pages", "auto_cancel"] = .ok ()
    ∧ interpretVersion entries root.line = .ok workflow.version
    ∧ whenPresent (findEntry entries "auto_cancel") true
      (fun value => interpretBoolean value "auto_cancel must be a boolean") = .ok workflow.auto_cancel
    ∧ interpretOn (findEntry entries "on")
      = .ok (workflow.branches, workflow.tags, workflow.triggers_default_branch)
    ∧ whenPresent (findEntry entries "env") [] interpretEnv = .ok workflow.env
    ∧ whenPresent (findEntry entries "sisters") [] (fun sisters => do
        let items ← requireSequence sisters "sisters to be a list"
        tooLargeIf (items.length > kMaximumCiSisters) "too many sisters"
        interpretSisters items sisters.line []) = .ok workflow.sisters
    ∧ whenPresent (findEntry entries "checkout") {} interpretCheckout = .ok workflow.checkout
    ∧ ¬ (workflow.version = 2 ∧ (findEntry entries "runs_on").isSome)
    ∧ interpretLabels (findEntry entries "runs_on") = .ok workflow.runs_on
    ∧ whenPresent (findEntry entries "cache") [] (fun caches => do
        let items ← requireSequence caches "cache to be a list"
        tooLargeIf (items.length > kMaximumCiCaches) "too many caches"
        interpretCaches items caches.line []) = .ok workflow.caches
    ∧ whenPresent (findEntry entries "pages") (none, []) (fun pages => interpretPages pages workflow.version)
      = .ok (workflow.pages_path, workflow.pages_job)
    ∧ ∃ node items, findEntry entries "jobs" = some node ∧ requireSequence node "jobs to be a list" = .ok items
      ∧ items.isEmpty = false ∧ items.length ≤ kMaximumCiJobs
      ∧ List.Forall₂ (fun item job => interpretJob item workflow.version = .ok job) items workflow.jobs

/-- The job of one name needs the other name. -/
def Needs (jobs : List CiJob) (name other : Bytes) : Prop := ∃ job ∈ jobs, job.name = name ∧ other ∈ job.needs

structure Orderly (workflow : CiWorkflow) : Prop where
  unique : (workflow.jobs.map CiJob.name).Nodup
  others : ∀ job ∈ workflow.jobs, ∀ name ∈ job.needs, name ≠ job.name ∧ name ∈ workflow.jobs.map CiJob.name
  acyclic : ∀ name, ¬ TransGen (Needs workflow.jobs) name name
  pages : workflow.version = 2 → workflow.pages_job = [] ∨ workflow.pages_job ∈ workflow.jobs.map CiJob.name
  artifacts : workflow.version = 2 → ((workflow.jobs.filterMap CiJob.artifact).map CiArtifact.name).Nodup

def graphOf (jobs : List CiJob) : Kahn.Graph Bytes := jobs.map fun job => (job.name, job.needs)

section
variable {jobs : List CiJob} {root : YamlNode} {workflow : CiWorkflow}

theorem nodes_graphOf (jobs : List CiJob) : Kahn.nodes (graphOf jobs) = jobs.map CiJob.name := by
  simp [Kahn.nodes, graphOf]

theorem needs_graphOf (jobs : List CiJob) : Kahn.Needs (graphOf jobs) = Needs jobs := by
  funext name other
  simp [Kahn.Needs, Needs, graphOf]

theorem completeRound_eq (jobs : List CiJob) (completed : List Bytes) :
    completeRound jobs completed = Kahn.round (graphOf jobs) completed := by
  have visited : ∀ (completed : List Bytes) (job : CiJob),
      (if job.needs.all completed.contains then completed.insert job.name else completed)
        = Kahn.visit completed (job.name, job.needs) := by
    intro completed job
    have ready : job.needs.all completed.contains = true ↔ ∀ need ∈ job.needs, need ∈ completed := by simp
    unfold Kahn.visit
    by_cases all : ∀ need ∈ job.needs, need ∈ completed
    · rw [if_pos (ready.mpr all)]
      by_cases held : job.name ∈ completed
      · rw [List.insert_of_mem held, if_neg fun both => both.1 held]
      · rw [List.insert_of_not_mem held, if_pos ⟨held, all⟩]
    · rw [if_neg fun yes => all (ready.mp yes), if_neg fun both => all both.2]
  rw [completeRound, Kahn.round, graphOf, List.foldl_map]
  simp only [visited]

theorem completeAll_eq (jobs : List CiJob) (rounds : Nat) (completed : List Bytes) :
    completeAll jobs rounds completed = Kahn.complete (graphOf jobs) rounds completed := by
  have size : (graphOf jobs).length = jobs.length := List.length_map _
  induction rounds generalizing completed with
  | zero => simp [completeAll, Kahn.complete, size]
  | succ rounds ih => simp only [completeAll, Kahn.complete, size, completeRound_eq, ih]

/-- The loop passes exactly when every need is a job and no job needs itself through others. -/
theorem completeAll_iff (unique : (jobs.map CiJob.name).Nodup) {rounds : Nat} (enough : jobs.length ≤ rounds) :
    completeAll jobs rounds [] = true ↔ Kahn.Orderly (graphOf jobs) := by
  rw [completeAll_eq]
  refine Kahn.complete_iff (nodes_graphOf jobs ▸ unique) (Kahn.valid_nil _) ?_
  rw [graphOf, List.length_map, List.length_nil]
  omega

theorem graph_orderly (others : ∀ job ∈ jobs, ∀ name ∈ job.needs, name ∈ jobs.map CiJob.name)
    (acyclic : ∀ name, ¬ TransGen (Needs jobs) name name) : Kahn.Orderly (graphOf jobs) := by
  refine ⟨fun entry member need inside => ?_, needs_graphOf jobs ▸ acyclic⟩
  obtain ⟨job, own, rfl⟩ := List.mem_map.mp member
  rw [nodes_graphOf]
  exact others job own need inside

theorem Orderly.graph (orderly : Orderly workflow) : Kahn.Orderly (graphOf workflow.jobs) :=
  graph_orderly (fun job own need inside => (orderly.others job own need inside).2) orderly.acyclic

theorem check_ok {ε α : Type} {check : Except ε Unit} {next : Unit → Except ε α} {a : α} :
    (check >>= next) = .ok a ↔ check = .ok () ∧ next () = .ok a := by
  rw [bind_ok]
  exact ⟨fun ⟨(), both⟩ => both, fun both => ⟨(), both⟩⟩

theorem forM_ok {ε α : Type} {items : List α} {f : α → Except ε Unit} :
    items.forM f = .ok () ↔ ∀ item ∈ items, f item = .ok () := by
  induction items with
  | nil => simp [pure_ok]
  | cons item rest ih =>
    rw [show (item :: rest).forM f = f item >>= fun _ => rest.forM f from rfl, check_ok, List.forall_mem_cons, ih]

theorem interpretJobs_iff {items : List YamlNode} {version : Nat} {seen : List Bytes} {read : List CiJob}
    (rules : List.Forall₂ (fun item job => interpretJob item version = .ok job) items jobs) :
    interpretJobs items version seen = .ok read
      ↔ (jobs.map CiJob.name).Nodup ∧ (∀ job ∈ jobs, job.name ∉ seen) ∧ read = jobs := by
  induction rules generalizing seen read with
  | nil =>
    rw [interpretJobs, pure_ok]
    simp [eq_comm]
  | @cons item job items jobs first _ ih =>
    simp only [interpretJobs, bind_ok, first, Except.ok.injEq, malformedAtIf, rejectIf_ok, pure_ok, ih, List.map_cons,
      List.nodup_cons, List.forall_mem_cons, List.contains_iff_mem]
    constructor
    · rintro ⟨_, rfl, _, fresh, others, ⟨unique, apart, rfl⟩, rfl⟩
      refine ⟨⟨fun again => ?_, unique⟩, ⟨fresh, fun other member held => ?_⟩, rfl⟩
      · obtain ⟨other, member, same⟩ := List.mem_map.mp again
        exact apart other member (List.mem_cons.mpr (.inl same))
      · exact apart other member (List.mem_cons_of_mem _ held)
    · rintro ⟨⟨once, unique⟩, ⟨fresh, apart⟩, rfl⟩
      refine ⟨_, rfl, (), fresh, _, ⟨unique, fun other member held => ?_, rfl⟩, rfl⟩
      rcases List.mem_cons.mp held with same | before
      · exact once (List.mem_map.mpr ⟨other, member, same⟩)
      · exact apart other member before

theorem checkOutputs_iff {line : Nat} : checkOutputs workflow line = .ok ()
    ↔ (workflow.pages_job = [] ∨ workflow.pages_job ∈ workflow.jobs.map CiJob.name)
      ∧ ((workflow.jobs.filterMap CiJob.artifact).map CiArtifact.name).Nodup := by
  simp only [checkOutputs, check_ok, malformedIf, rejectIf_ok, not_not, List.isEmpty_iff, List.contains_iff_mem,
    not_and_or]

theorem checkNeeds_iff {line : Nat} : (workflow.jobs.forM fun job => job.needs.forM
      (checkNeed (workflow.jobs.map CiJob.name) job line)) = .ok ()
    ↔ ∀ job ∈ workflow.jobs, ∀ name ∈ job.needs, name ≠ job.name ∧ name ∈ workflow.jobs.map CiJob.name := by
  simp only [forM_ok, checkNeed, rejectIf_ok, not_or, not_not, List.contains_iff_mem, ne_eq]

theorem checkGraph_iff (unique : (workflow.jobs.map CiJob.name).Nodup) (line : Nat) :
    checkGraph workflow line = .ok () ↔ Orderly workflow := by
  have loop := completeAll_iff unique (Nat.le_refl workflow.jobs.length)
  have rest : (do
      workflow.jobs.forM fun job => job.needs.forM (checkNeed (workflow.jobs.map CiJob.name) job line)
      malformedIf (¬ completeAll workflow.jobs workflow.jobs.length []) "job dependencies contain a cycle" line) = .ok ()
      ↔ (∀ job ∈ workflow.jobs, ∀ name ∈ job.needs, name ≠ job.name ∧ name ∈ workflow.jobs.map CiJob.name)
        ∧ ∀ name, ¬ TransGen (Needs workflow.jobs) name name := by
    simp only [check_ok, checkNeeds_iff, malformedIf, rejectIf_ok, not_not, loop]
    refine and_congr_right fun others => ?_
    exact ⟨fun graph => needs_graphOf workflow.jobs ▸ graph.acyclic,
      graph_orderly fun job own need inside => (others job own need inside).2⟩
  unfold checkGraph
  by_cases two : workflow.version = 2
  · rw [if_pos two, check_ok, checkOutputs_iff, rest]
    constructor
    · rintro ⟨outputs, others, acyclic⟩
      exact ⟨unique, others, acyclic, fun _ => outputs.1, fun _ => outputs.2⟩
    · exact fun orderly => ⟨⟨orderly.pages two, orderly.artifacts two⟩, orderly.others, orderly.acyclic⟩
  · rw [if_neg two, rest]
    constructor
    · rintro ⟨others, acyclic⟩
      exact ⟨unique, others, acyclic, fun yes => absurd yes two, fun yes => absurd yes two⟩
    · exact fun orderly => ⟨orderly.others, orderly.acyclic⟩

/-- A tree whose fields meet the rules is accepted exactly when its jobs are orderly, as the workflow
its fields describe. -/
theorem interpret_iff (rules : FieldRules root workflow) {read : CiWorkflow} :
    interpret root = .ok read ↔ Orderly workflow ∧ read = workflow := by
  obtain ⟨entries, mapping, keys, version, auto_cancel, triggers, env, sisters, checkout, level, runs_on, caches, pages,
    node, items, found, sequence, some_job, few, described⟩ := rules.described
  simp only [tooLargeIf] at sisters caches
  rw [interpret]
  simp only [mapping, keys, version, auto_cancel, triggers, env, sisters, checkout, runs_on, caches, pages, found,
    sequence, bind_ok, Except.ok.injEq, exists_eq_left', malformedIf, tooLargeIf, rejectIf_ok, level, some_job,
    exists_const, true_and, Bool.false_eq_true, not_false_eq_true, interpretJobs_iff described, pure_ok]
  constructor
  · rintro ⟨_, jobs, ⟨unique, _, rfl⟩, _, graph, rfl⟩
    exact ⟨(checkGraph_iff unique node.line).mp graph, rfl⟩
  · rintro ⟨orderly, rfl⟩
    exact ⟨Nat.not_lt.mpr few, _, ⟨orderly.unique, by simp, rfl⟩, (),
      (checkGraph_iff orderly.unique node.line).mpr orderly, rfl⟩

/-- The fields of an accepted tree meet the rules. -/
theorem interpret_rules (accepted : interpret root = .ok workflow) : FieldRules root workflow := by
  rw [interpret] at accepted
  simp only [bind_ok] at accepted
  obtain ⟨entries, mapping, _, keys, version, known, auto_cancel, flag, ⟨branches, tags, default_branch⟩, triggers, env,
    settings, sisters, listed, checkout, history, _, level, runs_on, labels, caches, stores, ⟨pages_path, pages_job⟩,
    pages, accepted⟩ := accepted
  split at accepted
  · cases accepted
  · next node found =>
    simp only [bind_ok, malformedIf, tooLargeIf, rejectIf_ok, pure_ok] at accepted level
    obtain ⟨items, sequence, _, some_job, _, few, jobs, read, _, _, rfl⟩ := accepted
    exact ⟨entries, mapping, keys, known, flag, triggers, settings, listed, history, level, labels, stores, pages, node,
      items, found, sequence, by simpa using some_job, Nat.not_lt.mp few, interpretJobs_described read⟩

theorem interpretNeeds_once {items : List YamlNode} {seen needs : List Bytes}
    (read : interpretNeeds items seen = .ok needs) :
    needs.length = items.length ∧ needs.Nodup ∧ ∀ need ∈ needs, need ∉ seen := by
  induction items generalizing seen needs with
  | nil =>
    cases read
    exact ⟨rfl, List.nodup_nil, fun _ none => nomatch none⟩
  | cons item rest ih =>
    simp only [interpretNeeds, bind_ok, malformedIf, rejectIf_ok, pure_ok] at read
    obtain ⟨value, _, _, fresh, others, later, rfl⟩ := read
    obtain ⟨count, once, apart⟩ := ih later
    have unseen : value ∉ seen := fun held => fresh (by simp [held])
    refine ⟨congrArg (· + 1) count, List.nodup_cons.mpr ⟨fun again => ?_, once⟩, fun need member held => ?_⟩
    · exact apart value again List.mem_cons_self
    · rcases List.mem_cons.mp member with rfl | inside
      · exact unseen held
      · exact apart need inside (List.mem_cons_of_mem _ held)

theorem interpretJob_needs {item : YamlNode} {version : Nat} {job : CiJob} (read : interpretJob item version = .ok job) :
    BoundedLabels job.runs_on ∧ job.needs.length ≤ kMaximumCiJobs ∧ job.needs.Nodup := by
  obtain ⟨-, ⟨_, labels⟩, needs, -, -⟩ := interpretJob_ok read
  refine ⟨interpretLabels_bounded labels, ?_⟩
  rcases needs with none | ⟨items, few, listed⟩
  · rw [none]
    exact ⟨Nat.zero_le _, List.nodup_nil⟩
  · obtain ⟨count, once, _⟩ := interpretNeeds_once listed
    exact ⟨count ▸ few, once⟩

end
end CkGit.Workflow
