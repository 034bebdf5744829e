import CkGit.Store.GivenUp
import CkGit.Store.Regrouping
import CkGit.Store.Servers

/-!
The runs of one ref take turns. A claim looks at what is claimed before it takes
a job, and nothing that happens meanwhile can claim another; so the jobs claimed
on one ref are always jobs of one run.
-/
namespace CkGit.Store.Locking
open CkGit.Base CkGit.Ci Prog Relation

variable {s t : Files} {host : Host} {name : Bytes} {job : CiJobRequest} {busy : List RefHolder}

/-- The jobs claimed on one ref belong to one run. -/
def OneGroup (s : Files) : Prop :=
  ∀ a b, isIni a → isIni b → ∀ first second, readJobAt s .working a = some first →
    readJobAt s .working b = some second → first.project_name = second.project_name → first.ref = second.ref →
      jobGroup first = jobGroup second

/-- No job is claimed. -/
def Shrinks (s t : Files) : Prop :=
  ∀ name, isIni name → t.get (.queue .working name) = none ∨ t.get (.queue .working name) = s.get (.queue .working name)

theorem Shrinks.read (h : Shrinks s t) (named : isIni name) (read : readJobAt t .working name = some job) :
    readJobAt s .working name = some job := by
  rcases h name named with gone | same
  · obtain ⟨file, held, _⟩ := Files.readAs_some.mp read
    rw [gone] at held
    cases held
  · rw [← read]
    exact (Files.readAs_congr same).symm

theorem OneGroup.shrinks (h : OneGroup s) (less : Shrinks s t) : OneGroup t :=
  fun a b named other first second read found =>
    h a b named other first second (less.read named read) (less.read other found)

/-- Whatever is claimed, apart from one name, is in the list. -/
def Known (busy : List RefHolder) (apart : Bytes → Prop) (s : Files) : Prop :=
  ∀ name, isIni name → ¬ apart name → ∀ job, readJobAt s .working name = some job → refHolder job ∈ busy

theorem Known.shrinks {apart : Bytes → Prop} (h : Known busy apart s) (less : Shrinks s t) : Known busy apart t :=
  fun name named other job read => h name named other job (less.read named read)

theorem known_busyRefs (s : Files) : Known (busyRefs s) (fun _ => False) s := by
  intro name named _ job read
  apply List.mem_filterMap.mpr
  refine ⟨name, ?_, by rw [read]; rfl⟩
  apply List.mem_filter.mpr
  refine ⟨?_, named⟩
  obtain ⟨file, held, _⟩ := Files.readAs_some.mp read
  exact mem_names (by rw [held]; rfl)

/-- The runs in the list that have the job's ref are the job's own. -/
def Clear (busy : List RefHolder) (job : CiJobRequest) : Prop :=
  ∀ other ∈ busy, other.project_name = job.project_name → other.ref = job.ref → other.group = jobGroup job

theorem clear_of_turn {pending : List RefHolder} (h : ¬ outOfTurn busy pending job) : Clear busy job := by
  intro other member project ref
  simp only [outOfTurn, Bool.or_eq_true, not_or, List.any_eq_true, not_exists] at h
  by_contra different
  apply h.1 other
  simp [member, project, ref, different]

/-- A claim of a job whose ref is clear. -/
theorem OneGroup.claimed (h : OneGroup s) (known : Known busy (fun _ => False) s)
    (clear : ∀ job, readJobAt s .spool name = some job → Clear busy job) :
    OneGroup (s.rename (.queue .spool name) (.queue .working name))
      ∧ Known busy (· = name) (s.rename (.queue .spool name) (.queue .working name)) := by
  unfold Files.rename
  split
  · exact ⟨h, fun other named _ => known other named not_false⟩
  · rename_i file held
    have moved : ∀ {job}, readJobAt ((s.remove (.queue .spool name)).put (.queue .working name) file) .working name
        = some job → readJobAt s .spool name = some job := by
      intro job read
      obtain ⟨found, there, short, parsed⟩ := Files.readAs_some.mp read
      rw [Files.get_put_self] at there
      cases there
      exact Files.readAs_some.mpr ⟨file, held, short, parsed⟩
    have stayed : ∀ {other job}, other ≠ name →
        readJobAt ((s.remove (.queue .spool name)).put (.queue .working name) file) .working other = some job →
          readJobAt s .working other = some job := by
      intro other job different read
      rw [← read]
      apply (Files.readAs_congr _).symm
      rw [Files.get_put_ne (by intro same; cases same; exact different rfl),
        Files.get_remove_ne (by intro same; cases same)]
    refine ⟨?_, ?_⟩
    · intro a b named other first second read found project ref
      by_cases mine : a = name
      · subst mine
        by_cases same : b = a
        · subst same
          rw [read] at found
          cases found
          rfl
        · exact (clear first (moved read) _ (known b other not_false second (stayed same found)) project.symm
            ref.symm).symm
      · by_cases same : b = name
        · subst same
          exact clear second (moved found) _ (known a named not_false first (stayed mine read)) project ref
        · exact h a b named other first second (stayed mine read) (stayed same found) project ref
    · intro other named different job read
      exact known other named not_false job (stayed different read)

theorem oneGroup_meanwhile : Stable Meanwhile OneGroup :=
  fun _ _ other held => held.shrinks (Meanwhile.ends other).working

theorem known_meanwhile {apart : Bytes → Prop} : Stable Meanwhile (Known busy apart) :=
  fun _ _ other held => held.shrinks (Meanwhile.ends other).working

/-- What is known of the claims when the list was made. -/
def Looked (busy : List RefHolder) (apart : Bytes → Prop) (s : Files) : Prop := OneGroup s ∧ Known busy apart s

theorem looked_meanwhile {apart : Bytes → Prop} : Stable Meanwhile (Looked busy apart) :=
  fun s t other held => ⟨oneGroup_meanwhile s t other held.1, known_meanwhile s t other held.2⟩

/-- The operation keeps what holds, and its writes the turns. -/
abbrev Keeping (kept : Files → Prop) {α : Type} (p : Op α) : Prop :=
  Among Meanwhile (fun _ => OneGroup) kept p (fun _ => kept) OneGroup

theorem keeping_of_shrinks {α : Type} {p : Op α} (h : Guarantees Shrinks p) : Keeping OneGroup p :=
  h.among oneGroup_meanwhile (fun _ _ less held => held.shrinks less) fun _ _ held less => held.shrinks less

theorem looking_of_ends {α : Type} {apart : Bytes → Prop} {p : Op α} (h : Guarantees Ends p) :
    Keeping (Looked busy apart) p := by
  have kept : Among Meanwhile (fun _ => OneGroup) (Looked busy apart) p (fun _ => Looked busy apart)
      (Looked busy apart) := by
    apply h.among looked_meanwhile
    · exact fun s t ended held => ⟨held.1.shrinks ended.working, held.2.shrinks ended.working⟩
    · exact fun s t held ended => held.1.shrinks ended.working
  exact kept.mono (fun _ held => held) (fun _ _ held => held) fun _ held => held.1

/-- The job in the spool is the lock holder's business. -/
def Waiting (busy : List RefHolder) (name : Bytes) (found : Option CiJobRequest) (s : Files) : Prop :=
  readJobAt s .spool name = found ∧ Looked busy (fun _ => False) s

theorem waiting_meanwhile {found : Option CiJobRequest} : Stable Meanwhile (Waiting busy name found) := by
  intro s t other held
  refine ⟨?_, looked_meanwhile s t other held.2⟩
  rw [← held.1]
  exact Files.readAs_congr (Meanwhile.spool other name)

/-- A job is taken where its ref is clear. -/
def Chosen (busy : List RefHolder) (name : Bytes) (choice : Choice) (s : Files) : Prop :=
  Looked busy (fun _ => False) s
    ∧ (choice = .take → ∀ job, readJobAt s .spool name = some job → Clear busy job)

theorem chosen_meanwhile {choice : Choice} : Stable Meanwhile (Chosen busy name choice) := by
  intro s t other held
  refine ⟨looked_meanwhile s t other held.1, ?_⟩
  intro take job read
  apply held.2 take job
  rw [← read]
  exact (Files.readAs_congr (Meanwhile.spool other name)).symm

theorem Waiting.gets {α : Type} {found : Option CiJobRequest} (f : Files → α) :
    Keeping (Waiting busy name found) (Prog.gets f : Op α) :=
  Among.gets waiting_meanwhile (fun _ => waiting_meanwhile) fun _ held => held

theorem skips {found : Option CiJobRequest} {p : Op Unit} (h : Guarantees Ends p) :
    Among Meanwhile (fun _ => OneGroup) (Waiting busy name found) (do p; return Choice.skip) (Chosen busy name)
      OneGroup := by
  have done : Among Meanwhile (fun _ => OneGroup) (Waiting busy name found) p (fun _ => Looked busy fun _ => False)
      OneGroup :=
    (looking_of_ends h).mono (fun _ held => held.2) (fun _ _ held => held) fun _ held => held
  apply Among.bind meanwhile_refl done
  intro _
  apply Among.done looked_meanwhile
  exact fun s held => ⟨held, fun take => by cases take⟩

theorem consider_chosen {options : CiClaimOptions} {pending : List RefHolder} (turns : options.one_per_ref = true) :
    Among Meanwhile (fun _ => OneGroup) (Waiting busy name (some job)) (consider host options busy pending name job)
      (Chosen busy name) OneGroup := by
  have skipped : Among Meanwhile (fun _ => OneGroup) (Waiting busy name (some job)) (pure Choice.skip : Op Choice)
      (Chosen busy name) OneGroup :=
    Among.done waiting_meanwhile fun s held => ⟨held.2, fun take => by cases take⟩
  apply Among.next meanwhile_refl (Waiting.gets _)
  intro cancelled
  split
  · exact skips (cancelQueuedJob_touches host runs_unclaimed job _ _)
  · split
    · exact skipped
    · apply Among.next meanwhile_refl (Waiting.gets _)
      intro needs
      split
      · exact skips (cancelQueuedJob_touches host runs_unclaimed job _ _)
      · split
        · exact skipped
        · rename_i eligible
          simp only [not_or, not_and, not_not, turns, true_and] at eligible
          apply Among.next meanwhile_refl (Waiting.gets _)
          intro young
          apply Among.done waiting_meanwhile
          intro s held
          refine ⟨held.2, ?_⟩
          intro _ read found
          rw [held.1] at found
          cases found
          exact clear_of_turn eligible.2.2.2

theorem chooseEntry_chosen {options : CiClaimOptions} {pending : List RefHolder}
    (turns : options.one_per_ref = true) :
    Among Meanwhile (fun _ => OneGroup) (Looked busy fun _ => False) (chooseEntry host options busy pending name)
      (Chosen busy name) OneGroup := by
  have read : Among Meanwhile (fun _ => OneGroup) (Looked busy fun _ => False)
      (Prog.gets (readJobAt · .spool name) : Op (Option CiJobRequest)) (Waiting busy name) OneGroup :=
    Among.gets looked_meanwhile (fun _ => waiting_meanwhile) fun s held => ⟨rfl, held⟩
  apply Among.bind meanwhile_refl read
  intro found
  cases found with
  | some job => exact consider_chosen turns
  | none =>
    apply Among.done waiting_meanwhile
    intro s held
    refine ⟨held.2, ?_⟩
    intro _ job found
    rw [held.1] at found
    cases found

/-- What is left when the taken job could not be read. -/
theorem Known.unread (h : Known busy (· = name) s) (unread : readJobAt s .working name = none) :
    Known busy (fun _ => False) s := by
  intro other named _ job read
  by_cases same : other = name
  · subst same
    rw [unread] at read
    cases read
  · exact h other named same job read

theorem takeJob_looked {runner : Bytes} {lease_seconds : UInt64} (named : isIni name) :
    Among Meanwhile (fun _ => OneGroup) (Chosen busy name .take) (takeJob host runner lease_seconds name)
      (fun taken s => OneGroup s ∧ (taken = none → Known busy (fun _ => False) s)) OneGroup := by
  apply Among.next meanwhile_refl (Among.gets chosen_meanwhile (fun _ => chosen_meanwhile) fun _ held => held)
  intro queued
  split
  · apply Among.done chosen_meanwhile
    exact fun s held => ⟨held.1.1, fun _ => held.1.2⟩
  · have renamed : Among Meanwhile (fun _ => OneGroup) (Chosen busy name .take)
        (renameFile (.queue .spool name) (.queue .working name)) (fun _ => Looked busy (· = name)) OneGroup := by
      apply Among.modify chosen_meanwhile looked_meanwhile
      intro s held
      have claimed := held.1.1.claimed held.1.2 (held.2 rfl)
      exact ⟨claimed.1, claimed⟩
    apply Among.bind meanwhile_refl renamed
    intro _
    have unread : ∀ {found : Option CiJobRequest}, Stable Ends fun s =>
        Looked busy (· = name) s ∧ (found = none → readJobAt s .working name = none) := by
      intro found s t ended held
      refine ⟨⟨held.1.1.shrinks ended.working, held.1.2.shrinks ended.working⟩, ?_⟩
      intro none
      cases again : readJobAt t .working name with
      | none => rfl
      | some job =>
        have before := Shrinks.read ended.working named again
        rw [held.2 none] at before
        cases before
    have read : Among Meanwhile (fun _ => OneGroup) (Looked busy (· = name))
        (Prog.gets (readJobAt · .working name) : Op (Option CiJobRequest))
        (fun found s => Looked busy (· = name) s ∧ (found = none → readJobAt s .working name = none)) OneGroup :=
      Among.gets looked_meanwhile (fun _ s t other held => unread s t (Meanwhile.ends other) held)
        fun s held => ⟨held, fun none => none⟩
    apply Among.bind meanwhile_refl read
    intro found
    cases found with
    | none =>
      have aside : Guarantees Ends (renameFile (.queue .working name) (.queue .working (name ++ ascii ".rejected"))) :=
        Guarantees.modify (touches_rename (aside_unclaimed name))
      have kept := aside.among (fun s t other held => @unread none s t (Meanwhile.ends other) held) unread
        (fun s t held ended => held.1.1.shrinks ended.working)
      apply Among.next meanwhile_refl (kept.mono (fun _ held => held) (fun _ _ held => held) fun _ held => held.1.1)
      intro _
      apply Among.done fun s t other held => unread s t (Meanwhile.ends other) held
      exact fun s held => ⟨held.1.1, fun _ => held.1.2.unread (held.2 rfl)⟩
    | some job =>
      have leased : Keeping OneGroup (writeFile host (.queue .leases name)
          (serializeLease { runner, token := host.token, expires_epoch_seconds := host.now + lease_seconds })) := by
        apply keeping_of_shrinks
        apply Guarantees.modify
        intro s other _
        apply Or.inr
        exact Files.get_put_ne (by intro same; cases same)
      apply Among.bind meanwhile_refl (leased.mono (fun _ held => held.1.1) (fun _ _ held => held) fun _ held => held)
      intro _
      apply Among.done oneGroup_meanwhile
      exact fun s held => ⟨held, fun none => by cases none⟩

theorem claimFrom_turns {options : CiClaimOptions} {pending : List RefHolder} {names : List Bytes}
    (turns : options.one_per_ref = true) (named : ∀ name ∈ names, isIni name) (retry_in : Option Int) :
    Among Meanwhile (fun _ => OneGroup) (Looked busy fun _ => False)
      (claimFrom host options busy pending names retry_in) (fun _ => OneGroup) OneGroup := by
  induction names generalizing retry_in with
  | nil => exact Among.done looked_meanwhile fun _ held => held.1
  | cons name rest ih =>
    have later := ih fun other member => named other (List.mem_cons_of_mem name member)
    apply Among.bind meanwhile_refl (chooseEntry_chosen turns)
    intro choice
    cases choice with
    | skip => exact (later retry_in).mono (fun _ held => held.1) (fun _ _ held => held) fun _ held => held
    | wait milliseconds => exact (later _).mono (fun _ held => held.1) (fun _ _ held => held) fun _ held => held
    | take =>
      apply Among.bind meanwhile_refl (takeJob_looked (named name List.mem_cons_self))
      intro taken
      cases taken with
      | none =>
        exact (later retry_in).mono (fun _ held => ⟨held.1, held.2 rfl⟩) (fun _ _ held => held) fun _ held => held
      | some claim =>
        have settled : Keeping OneGroup (do
            whenever (¬ claim.job.parent_run_id.isEmpty) (reconcileWorkflowGroups host)
            return (some claim, retry_in) : Op (Option CiClaim × Option Int)) := by
          apply keeping_of_shrinks
          apply Guarantees.mono _ fun _ _ ended => Ends.working ended
          exact (reconcileWorkflowGroups_ends host).whenever.bind fun _ => Guarantees.pure _
        exact settled.mono (fun _ held => held.1) (fun _ _ held => held) fun _ held => held

theorem queueOrder_named {listed : List Bytes} : ∀ name ∈ queueOrder listed, isIni name := by
  intro name member
  have held := (List.mem_filter.mp member).2
  rw [Bool.and_eq_true] at held
  exact held.2

theorem keeping_of_ends {α : Type} {p : Op α} (h : Guarantees Ends p) : Keeping OneGroup p :=
  keeping_of_shrinks (h.mono fun _ _ ended => Ends.working ended)

theorem claimCiJob_turns {options : CiClaimOptions} (turns : options.one_per_ref = true) :
    Keeping OneGroup (claimCiJob host options) := by
  apply Among.next meanwhile_refl (keeping_of_ends (Guarantees.ofExcept _))
  intro _
  apply Among.next meanwhile_refl (keeping_of_ends (reconcileWorkflowGroups_ends host))
  intro _
  apply Among.next meanwhile_refl (keeping_of_ends (Guarantees.gets _))
  intro listed
  have looked : Among Meanwhile (fun _ => OneGroup) OneGroup (Prog.gets busyRefs : Op (List RefHolder))
      (fun busy => Looked busy fun _ => False) OneGroup :=
    Among.gets oneGroup_meanwhile (fun _ => looked_meanwhile) fun s held => ⟨held, known_busyRefs s⟩
  apply Among.bind meanwhile_refl looked
  intro busy
  apply Among.next meanwhile_refl (looking_of_ends (Guarantees.reads _))
  exact fun pending => claimFrom_turns turns queueOrder_named none

theorem renewCiLease_shrinks {id token : Bytes} {lease_seconds : UInt64} :
    Guarantees Shrinks (renewCiLease host id token lease_seconds) := by
  unfold renewCiLease
  split
  · exact Guarantees.pure _
  · apply (Guarantees.gets _).bind
    intro claimed
    apply (Guarantees.gets _).bind
    intro found
    cases found with
    | none => exact Guarantees.pure _
    | some lease =>
      simp only
      split
      · exact Guarantees.pure _
      · refine (Guarantees.modify ?_).bind fun _ => Guarantees.pure _
        intro s other _
        apply Or.inr
        exact Files.get_put_ne (by intro same; cases same)

/-- claimCiJob takes one run of a ref at a time. -/
def TakesTurns (call : Call) : Prop := ∀ options, call = .claim options → options.one_per_ref = true

theorem op_turns {call : Call} (turns : TakesTurns call) : Holds OneGroup (call.op host) := by
  cases call with
  | enqueue request => exact keeping_of_ends (enqueueCiJob_touches host runs_unclaimed (spool_unclaimed _))
  | submit parent children => exact keeping_of_ends (enqueueCiWorkflowJobs_ends host parent children)
  | refresh => exact keeping_of_ends (reconcileWorkflowGroups_ends host)
  | claim options => exact Holds.ignore oneGroup_meanwhile (claimCiJob_turns (turns options rfl))
  | renew id token lease_seconds => exact Holds.ignore oneGroup_meanwhile (keeping_of_shrinks renewCiLease_shrinks)
  | release id token => exact Holds.ignore oneGroup_meanwhile (keeping_of_ends (releaseCiClaim_ends host id token))
  | abandon id token runner =>
    exact Holds.ignore oneGroup_meanwhile (keeping_of_ends (abandonCiJob_ends host id token runner))
  | reap options => exact Holds.ignore oneGroup_meanwhile (keeping_of_ends (reapCiLeases_ends host options))
  | remove project_name => exact keeping_of_ends (removeProjectCi_touches host project_name)

/-- Whatever the processes of the server do, in whichever order and wherever they die: the jobs that
are claimed on one ref of a project are jobs of one run. -/
theorem one_run_per_ref (s : Files) (server : Server) (start : OneGroup s)
    (path : ReflTransGen (Step fun _ call => TakesTurns call) ⟨s, none⟩ server) : OneGroup server.files :=
  holds_throughout (fun _ _ other held => held.shrinks (Ends.working (other.touches runs_unclaimed)))
    (fun _ _ turns => op_turns turns)
    start path

def turnOptions : CiClaimOptions := { runner := ascii "r", lease_seconds := 60 }

/-- Another run on the ref of the first. -/
def secondJob : CiJobRequest := { firstJob with job_id := ascii "2" }

/-- The store after these calls, each to its end. -/
def afterCalls (calls : List Call) : Files := calls.foldl (fun s call => ((call.op firstHost).exec s).2) ∅

private theorem turns_table : (((Call.enqueue firstJob).op firstHost).exec ∅).1.isOk = true
    ∧ (((Call.claim turnOptions).op firstHost).exec (afterCalls [.enqueue firstJob])).1.isOk = true
    ∧ (((Call.enqueue secondJob).op firstHost).exec (afterCalls [.enqueue firstJob, .claim turnOptions])).1.isOk = true
    ∧ (((Call.claim turnOptions).op firstHost).exec
      (afterCalls [.enqueue firstJob, .claim turnOptions, .enqueue secondJob])).1.isOk = true
    ∧ (afterCalls [.enqueue firstJob, .claim turnOptions, .enqueue secondJob, .claim turnOptions]).names .working
      = [ini (ascii "1")]
    ∧ (afterCalls [.enqueue firstJob, .claim turnOptions, .enqueue secondJob, .claim turnOptions]).names .spool
      = [ini (ascii "2")] := by
  decide +kernel

/-- The first job is claimed, and the second claim leaves the second job where it is. -/
theorem one_run_per_ref_two_jobs :
    OneGroup (afterCalls [.enqueue firstJob, .claim turnOptions, .enqueue secondJob, .claim turnOptions])
      ∧ (afterCalls [.enqueue firstJob, .claim turnOptions, .enqueue secondJob, .claim turnOptions]).names .working
        = [ini (ascii "1")]
      ∧ (afterCalls [.enqueue firstJob, .claim turnOptions, .enqueue secondJob, .claim turnOptions]).names .spool
        = [ini (ascii "2")] := by
  have start : OneGroup (∅ : Files) := fun a b _ _ first second read => by
    obtain ⟨file, held, _⟩ := Files.readAs_some.mp read
    cases held
  have claims : TakesTurns (.claim turnOptions) := by
    intro options same
    cases same
    rfl
  have queues : ∀ request, TakesTurns (.enqueue request) := by
    intro request options same
    cases same
  have called : ∀ (s : Files) (call : Call), TakesTurns call → ((call.op firstHost).exec s).1.isOk = true →
      ReflTransGen (Step fun _ call => TakesTurns call) ⟨s, none⟩ ⟨((call.op firstHost).exec s).2, none⟩ :=
    fun _ _ turns fine => performed turns (returned_of_isOk fine)
  obtain ⟨queued, claimed, queued_next, claimed_next, working, spool⟩ := turns_table
  have first := called ∅ _ (queues firstJob) queued
  have second := called (afterCalls [.enqueue firstJob]) _ claims claimed
  have third := called (afterCalls [.enqueue firstJob, .claim turnOptions]) _ (queues secondJob) queued_next
  have fourth := called (afterCalls [.enqueue firstJob, .claim turnOptions, .enqueue secondJob]) _ claims claimed_next
  exact ⟨one_run_per_ref ∅ ⟨_, none⟩ start (((first.trans second).trans third).trans fourth), working, spool⟩

end CkGit.Store.Locking
