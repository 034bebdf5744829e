import CkGit.Store.GivenUp
import CkGit.Store.Regrouping
import CkGit.Store.Servers

/-!
A lease that a job has lost is lost for good. Leases are written by claimCiJob,
under a fresh token, and by renewCiLease, under the token it has just read; so a
token that no longer holds a job never holds it again, whatever the processes
of the server do in whichever order, and wherever they die. The jobs of a project
that was removed are gone in the same way.
-/
namespace CkGit.Store.Locking
open CkGit.Base CkGit.Ci Prog Relation

variable {s t : Files} {job_id token : Bytes}

/-- The job is not held under the token. -/
def Displaced (job_id token : Bytes) (s : Files) : Prop :=
  ∀ lease, readLeaseAt s job_id = some lease → lease.token ≠ token

theorem Displaced.not_held (h : Displaced job_id token s) : heldUnder s job_id token = false := by
  unfold heldUnder
  cases found : readLeaseAt s job_id with
  | none => rfl
  | some lease => exact beq_eq_false_iff_ne.mpr (h lease found)

theorem Displaced.congr (h : Displaced job_id token s)
    (same : t.get (.queue .leases (ini job_id)) = none
      ∨ t.get (.queue .leases (ini job_id)) = s.get (.queue .leases (ini job_id))) : Displaced job_id token t := by
  intro lease read
  rcases same with gone | same
  · obtain ⟨file, held, _⟩ := Files.readAs_some.mp read
    rw [gone] at held
    cases held
  · apply h lease
    rw [← read]
    exact (Files.readAs_congr same).symm

theorem displaced_ends : Stable Ends (Displaced job_id token) :=
  fun _ _ ended held => held.congr (ended.leases (ini job_id))

theorem displaced_meanwhile : Stable Meanwhile (Displaced job_id token) :=
  fun s t other held => displaced_ends s t (Meanwhile.ends other) held

/-- A lease that can be read back has the token it was written with. -/
theorem parseLease_token {lease read : CiLease} (h : parseLease (serializeLease lease) = .ok read) :
    read.token = lease.token := by
  simp only [parseLease, bind_ok, pure_ok, failIf, rejectIf_ok, not_or, not_not] at h
  obtain ⟨lines, framing, _, ⟨count, _⟩, _, _, token, held, _, _, _, _, _, _, result⟩ := h
  obtain ⟨rfl, _⟩ := frame_lines (orFail_ok.mp framing) (count.trans rfl)
  cases result
  simp only [leaseLines, List.getD_cons_succ, List.getD_cons_zero] at held
  rw [show field "token=" (ascii "token=" ++ lease.token) = .ok lease.token from field_append _ _] at held
  exact (Except.ok.inj held).symm

theorem Displaced.put {name : Bytes} {lease : CiLease} {modified : Int} (h : Displaced job_id token s)
    (other : lease.token ≠ token) :
    Displaced job_id token (s.put (.queue .leases name) { bytes := serializeLease lease, modified }) := by
  intro read found
  by_cases same : name = ini job_id
  · subst same
    obtain ⟨file, held, _, parsed⟩ := Files.readAs_some.mp found
    rw [Files.get_put_self] at held
    cases held
    rw [parseLease_token parsed]
    exact other
  · apply h read
    rw [← found]
    apply (Files.readAs_congr (Files.get_put_ne _)).symm
    intro paths
    injection paths with _ names
    exact same names.symm

/-- Displaced before, at each write and after. -/
abbrev KeepsDisplaced (job_id token : Bytes) {α : Type} (p : Op α) : Prop := Holds (Displaced job_id token) p

variable {host : Host}

theorem displaced_of_ends {α : Type} {p : Op α} (h : Guarantees Ends p) : KeepsDisplaced job_id token p :=
  holds_of_touches displaced_meanwhile displaced_ends h

theorem takeJob_displaced {runner name : Bytes} {lease_seconds : UInt64} (fresh : host.token ≠ token) :
    KeepsDisplaced job_id token (takeJob host runner lease_seconds name) := by
  apply Among.next meanwhile_refl (displaced_of_ends (Guarantees.gets _))
  intro queued
  split
  · exact displaced_of_ends (Guarantees.pure _)
  · have renamed : KeepsDisplaced job_id token (renameFile (.queue .spool name) (.queue .working name)) := by
      apply Among.modify displaced_meanwhile displaced_meanwhile
      intro s held
      have kept : Displaced job_id token (s.rename (.queue .spool name) (.queue .working name)) := by
        apply held.congr
        unfold Files.rename
        split
        · exact .inr rfl
        · rw [Files.get_put_ne (by intro same; cases same), Files.get_remove_ne (by intro same; cases same)]
          exact .inr rfl
      exact ⟨kept, kept⟩
    apply Among.next meanwhile_refl renamed
    intro _
    apply Among.next meanwhile_refl (displaced_of_ends (Guarantees.gets _))
    intro found
    cases found with
    | none =>
      exact displaced_of_ends ((Guarantees.modify (touches_rename (aside_unclaimed name))).bind fun _ =>
        Guarantees.pure _)
    | some job =>
      apply Among.next meanwhile_refl
      · apply Among.modify displaced_meanwhile displaced_meanwhile
        intro s held
        exact ⟨held.put fresh, held.put fresh⟩
      · exact fun _ => displaced_of_ends (Guarantees.pure _)

theorem claimFrom_displaced {options : CiClaimOptions} {busy pending : List RefHolder} {names : List Bytes}
    (fresh : host.token ≠ token) (retry_in : Option Int) :
    KeepsDisplaced job_id token (claimFrom host options busy pending names retry_in) := by
  induction names generalizing retry_in with
  | nil => exact displaced_of_ends (Guarantees.pure _)
  | cons name rest ih =>
    have chosen : KeepsDisplaced job_id token (chooseEntry host options busy pending name) := by
      apply Among.next meanwhile_refl (displaced_of_ends (Guarantees.gets _))
      intro found
      cases found with
      | none => exact displaced_of_ends (Guarantees.pure _)
      | some queued => exact displaced_of_ends (consider_touches host runs_unclaimed options busy pending name queued)
    apply Among.next meanwhile_refl chosen
    intro choice
    cases choice with
    | skip => exact ih retry_in
    | wait milliseconds => exact ih _
    | take =>
      apply Among.next meanwhile_refl (takeJob_displaced fresh)
      intro taken
      cases taken with
      | none => exact ih retry_in
      | some claim =>
        exact displaced_of_ends ((reconcileWorkflowGroups_ends host).whenever.bind fun _ => Guarantees.pure _)

theorem claimCiJob_displaced {options : CiClaimOptions} (fresh : host.token ≠ token) :
    KeepsDisplaced job_id token (claimCiJob host options) := by
  apply Among.next meanwhile_refl (displaced_of_ends (Guarantees.ofExcept _))
  intro _
  apply Among.next meanwhile_refl (displaced_of_ends (reconcileWorkflowGroups_ends host))
  intro _
  apply Among.next meanwhile_refl (displaced_of_ends (Guarantees.gets _))
  intro listed
  apply Among.next meanwhile_refl (displaced_of_ends (Guarantees.gets _))
  intro busy
  apply Among.next meanwhile_refl (displaced_of_ends (Guarantees.reads _))
  exact fun pending => claimFrom_displaced fresh none

/-- A renewal keeps the token of the lease it has read. -/
theorem renewCiLease_displaced {id renewed : Bytes} {lease_seconds : UInt64} :
    KeepsDisplaced job_id token (renewCiLease host id renewed lease_seconds) := by
  unfold renewCiLease
  split
  · exact displaced_of_ends (Guarantees.pure _)
  · apply Among.next meanwhile_refl (displaced_of_ends (Guarantees.gets _))
    intro claimed
    -- Once the lease is read its token is known to be another one, if it is this job's.
    have read : Among Meanwhile (fun _ => Displaced job_id token) (Displaced job_id token)
        (Prog.gets (readLeaseAt · id) : Op (Option CiLease))
        (fun found s => (∀ lease, found = some lease → id = job_id → lease.token ≠ token) ∧ Displaced job_id token s)
        (Displaced job_id token) := by
      apply Among.gets displaced_meanwhile
      · exact fun found s t other held => ⟨held.1, displaced_meanwhile s t other held.2⟩
      · intro s held
        refine ⟨?_, held⟩
        intro lease found same
        subst same
        exact held lease found
    apply Among.bind meanwhile_refl read
    intro found
    apply Among.given
    intro known
    cases found with
    | none => exact displaced_of_ends (Guarantees.pure _)
    | some lease =>
      simp only
      split
      · exact displaced_of_ends (Guarantees.pure _)
      · apply Among.next meanwhile_refl
        · apply Among.modify displaced_meanwhile displaced_meanwhile
          intro s held
          have kept : Displaced job_id token (s.put (.queue .leases (ini id))
              { bytes := serializeLease { lease with expires_epoch_seconds := host.now + lease_seconds }
                modified := host.millis }) := by
            by_cases same : id = job_id
            · exact held.put (known lease rfl same)
            · apply held.congr
              apply Or.inr
              apply Files.get_put_ne
              intro paths
              injection paths with _ names
              exact same (ini_injective names).symm
          exact ⟨kept, kept⟩
        · exact fun _ => displaced_of_ends (Guarantees.pure _)

theorem op_displaced {call : Call} (fresh : host.token ≠ token) : Holds (Displaced job_id token) (call.op host) := by
  cases call with
  | enqueue request => exact displaced_of_ends (enqueueCiJob_touches host runs_unclaimed (spool_unclaimed _))
  | submit parent children => exact displaced_of_ends (enqueueCiWorkflowJobs_ends host parent children)
  | refresh => exact displaced_of_ends (reconcileWorkflowGroups_ends host)
  | claim options => exact (claimCiJob_displaced fresh).ignore displaced_meanwhile
  | renew id renewed lease_seconds => exact renewCiLease_displaced.ignore displaced_meanwhile
  | release id released => exact (displaced_of_ends (releaseCiClaim_ends host id released)).ignore displaced_meanwhile
  | abandon id abandoned runner =>
    exact (displaced_of_ends (abandonCiJob_ends host id abandoned runner)).ignore displaced_meanwhile
  | reap options => exact (displaced_of_ends (reapCiLeases_ends host options)).ignore displaced_meanwhile
  | remove project_name => exact displaced_of_ends (removeProjectCi_touches host project_name)

theorem renewCiLease_refused (h : Displaced job_id token s) (host : Host) (lease_seconds : UInt64) :
    (renewCiLease host job_id token lease_seconds).exec s = (.ok false, s) := by
  unfold renewCiLease
  split
  · rfl
  · simp only [exec_bind, Prog.exec_gets]
    cases found : readLeaseAt s job_id with
    | none => rfl
    | some lease =>
      simp only
      rw [if_pos (Or.inr (h lease found))]
      rfl

theorem releaseCiClaim_refused (h : Displaced job_id token s) (host : Host) :
    (releaseCiClaim host job_id token).exec s = (.ok false, s) := by
  unfold releaseCiClaim
  split
  · rfl
  · simp only [exec_bind, Prog.exec_gets, h.not_held]
    rfl

theorem abandonCiJob_refused (h : Displaced job_id token s) (host : Host) (runner : Bytes) :
    (abandonCiJob host job_id token runner).exec s = (.ok false, s) := by
  unfold abandonCiJob
  split
  · rfl
  · simp only [exec_bind, Prog.exec_gets, h.not_held]
    rfl

/-- From a moment at which no process holds the lock and a job is not held under a token, and as long
as the host makes other tokens: the job is never held under it again, and whoever still has it can
renew, release and abandon nothing. -/
theorem lost_lease_stays_lost (job_id token : Bytes) (s : Files) (server : Server) (lost : Displaced job_id token s)
    (path : ReflTransGen (Step fun host _ => host.token ≠ token) ⟨s, none⟩ server) :
    (∀ claim, loadCiClaim server.files job_id = some claim → claim.lease.token ≠ token)
      ∧ ∀ host runner lease_seconds,
        (renewCiLease host job_id token lease_seconds).exec server.files = (.ok false, server.files)
        ∧ (releaseCiClaim host job_id token).exec server.files = (.ok false, server.files)
        ∧ (abandonCiJob host job_id token runner).exec server.files = (.ok false, server.files) := by
  have stays : Displaced job_id token server.files :=
    holds_throughout (fun s t other held => displaced_ends s t (other.touches runs_unclaimed) held)
      (fun host call fresh => op_displaced fresh) lost path
  refine ⟨?_, ?_⟩
  · intro claim loaded
    unfold loadCiClaim at loaded
    split at loaded
    · simp only [Option.bind_eq_bind, Option.bind_eq_some_iff, Option.some.injEq] at loaded
      obtain ⟨job, _, lease, read, rfl⟩ := loaded
      exact stays lease read
    · cases loaded
  · intro host runner lease_seconds
    exact ⟨renewCiLease_refused stays host lease_seconds, releaseCiClaim_refused stays host,
      abandonCiJob_refused stays host runner⟩

/-- A job that a runner has claimed. -/
def claimedFiles : Files := ((takeJob firstHost (ascii "r") 60 (ini (ascii "1"))).exec firstFiles).2

def lostToken : Bytes := List.replicate 32 'b'.toUInt8

private theorem claimed_lease : readLeaseAt claimedFiles (ascii "1")
    = some { runner := ascii "r", token := firstHost.token, expires_epoch_seconds := 160 } := by
  decide +kernel

theorem lost_lease_stays_lost_claimed :
    (renewCiLease firstHost (ascii "1") lostToken 60).exec claimedFiles = (.ok false, claimedFiles) := by
  have fresh : firstHost.token ≠ lostToken := by decide +kernel
  have lost : Displaced (ascii "1") lostToken claimedFiles := by
    intro lease found
    rw [claimed_lease, Option.some.injEq] at found
    rw [← found]
    exact fresh
  have path : ReflTransGen (Step fun host _ => host.token ≠ lostToken) ⟨claimedFiles, none⟩ ⟨claimedFiles, none⟩ :=
    .tail (.single (.lock firstHost .refresh fresh)) .unlock
  obtain ⟨_, refused⟩ := lost_lease_stays_lost (ascii "1") lostToken claimedFiles ⟨claimedFiles, none⟩ lost path
  have renewal := (refused firstHost [] 60).1
  rw [renewal]

/-- The journal of this name lists the job. -/
def ListedBy (name job_id : Bytes) (s : Files) : Prop := ∃ bytes group,
  s.readCapped (.queue .groups name) kMaximumWorkflowGroupBytes = .ok (some bytes)
    ∧ parseWorkflowGroup bytes = .ok group ∧ ∃ child ∈ group.children, child.job_id = job_id

/-- The queue has no file of the job. -/
def Cleared (job_id : Bytes) (s : Files) : Prop :=
  ∀ directory, directory ≠ .groups → s.get (.queue directory (ini job_id)) = none

/-- Nothing from which the job could be run. -/
def Absent (job_id : Bytes) (s : Files) : Prop :=
  Cleared job_id s ∧ ∀ name, isIni name → ¬ ListedBy name job_id s

/-- A path at which no file makes a job come back. -/
def Harmless (job_id : Bytes) (path : Path) : Prop :=
  (∀ name, path ≠ .queue .groups name) ∧ ∀ directory, path ≠ .queue directory (ini job_id)

theorem runs_harmless (project_name run_id : Bytes) (file : RunFile) :
    Harmless job_id (.run project_name run_id file) := ⟨by simp, by simp⟩

theorem named_harmless {directory : Directory} {name : Bytes} (jobs : directory ≠ .groups) (other : name ≠ ini job_id) :
    Harmless job_id (.queue directory name) := by
  refine ⟨?_, ?_⟩
  · intro named same
    injection same with directories
    exact jobs directories
  · intro held same
    injection same with _ names
    exact other names

theorem queued_harmless {id : Bytes} (other : id ≠ job_id) : Harmless job_id (.queue .spool (ini id)) :=
  named_harmless (by decide) fun same => other (ini_injective same)

theorem ListedBy.before {name : Bytes} (h : ListedBy name job_id t)
    (same : t.get (.queue .groups name) = none ∨ t.get (.queue .groups name) = s.get (.queue .groups name)) :
    ListedBy name job_id s := by
  obtain ⟨bytes, group, read, parsed, child⟩ := h
  rcases same with gone | same
  · obtain ⟨_, held, _⟩ := capped_some read
    rw [gone] at held
    cases held
  · exact ⟨bytes, group, (Files.readCapped_congr same).symm.trans read, parsed, child⟩

theorem cleared_touches : Stable (Touches (Harmless job_id)) (Cleared job_id) := by
  intro s t touched clear directory jobs
  rcases touched (.queue directory (ini job_id)) fun harmless => harmless.2 directory rfl with gone | same
  · exact gone
  · rw [same]
    exact clear directory jobs

theorem absent_touches : Stable (Touches (Harmless job_id)) (Absent job_id) := by
  intro s t touched absent
  refine ⟨cleared_touches s t touched absent.1, ?_⟩
  intro name named listed
  exact absent.2 name named (listed.before (touched _ fun harmless => harmless.1 name rfl))

theorem absent_meanwhile : Stable Meanwhile (Absent job_id) :=
  fun s t other held => absent_touches s t (Meanwhile.touches other runs_harmless) held

theorem absent_of_touches {α : Type} {p : Op α} (h : Guarantees (Touches (Harmless job_id)) p) :
    Holds (Absent job_id) p := holds_of_touches absent_meanwhile absent_touches h

theorem Cleared.unread (h : Cleared job_id s) {directory : Directory} (jobs : directory ≠ .groups) :
    readJobAt s directory (ini job_id) = none := by
  simp [readJobAt, Files.readAs, Files.readCapped, h directory jobs]

theorem requeueLocked_absent {id runner : Bytes} {enforce_limit : Bool} {max_attempts : UInt32} :
    Holds (Absent job_id) (requeueLocked host id runner enforce_limit max_attempts) := by
  have aside : Harmless job_id (.queue .working (ini id ++ ascii ".rejected")) :=
    named_harmless (by decide) (rejected_ne (ini id)).symm
  by_cases same : id = job_id
  · subst same
    apply Holds.gets (fun found => found = none) absent_meanwhile
    · exact fun s absent => absent.1.unread (by decide)
    · intro found none
      subst none
      exact absent_of_touches ((Guarantees.modify (touches_rename aside)).bind fun _ => (unlink_touches _).bind fun _ =>
        Guarantees.pure _)
  · exact absent_of_touches (requeueLocked_touches host runs_harmless (queued_harmless same) aside _ _ _)

/-- The children of a journal that is read are other jobs. -/
theorem reconcileGroup_absent {file : Bytes} (named : isIni file) :
    Holds (Absent job_id) (reconcileGroup host file) := by
  apply Holds.reads (fun held => ∀ bytes group, held = some bytes → parseWorkflowGroup bytes = .ok group →
    ∀ child ∈ group.children, child.job_id ≠ job_id) absent_meanwhile
  · intro s held absent read bytes group found parsed child inside same
    subst found
    exact absent.2 file named ⟨bytes, group, read, parsed, child, inside, same⟩
  · intro held others
    cases held with
    | none => exact absent_of_touches (Guarantees.pure _)
    | some bytes =>
      apply Holds.ofExcept absent_meanwhile
      intro group parsed
      have queued : ∀ child ∈ group.children, Harmless job_id (.queue .spool (ini child.job_id)) :=
        fun child inside => queued_harmless (others bytes group rfl parsed child inside)
      apply Holds.next (absent_of_touches (Guarantees.ofExcept _))
      intro _
      apply Holds.next (absent_of_touches (publishGroup_touches host runs_harmless group.parent bytes))
      intro _
      apply Holds.next
      · apply Among.accumulate meanwhile_refl fun _ => absent_meanwhile
        intro progress child inside
        exact absent_of_touches ((reconcileChild_touches host runs_harmless (queued child inside) group.parent).bind
          fun _ => Guarantees.pure _)
      · intro progress
        apply absent_of_touches
        apply (Guarantees.forEach fun child => supersedeCiJobs_touches host runs_harmless child).bind
        intro _
        exact (writeCiRunRecord_touches host runs_harmless _).bind fun _ => (unlink_touches _).whenever

theorem reconcileWorkflowGroups_absent : Holds (Absent job_id) (reconcileWorkflowGroups host) := by
  apply Holds.next (absent_of_touches (Guarantees.gets _))
  intro files
  apply Among.forEach meanwhile_refl absent_meanwhile
  intro file inside
  exact reconcileGroup_absent (List.mem_filter.mp inside).2

/-- A journal lists the children it was written for. -/
theorem writeJournal_absent {group : WorkflowGroup} {bytes : Bytes} (text : serializeWorkflowGroup group = .ok bytes)
    (others : ∀ child ∈ group.children, child.job_id ≠ job_id) :
    Holds (Absent job_id) (writeJournal host group bytes) := by
  apply Holds.next (absent_of_touches (Guarantees.reads _))
  intro existing
  cases existing with
  | some existing => exact absent_of_touches (Guarantees.ofExcept _)
  | none =>
    apply Holds.next (absent_of_touches (Guarantees.gets _))
    intro taken
    apply Holds.next (absent_of_touches (Guarantees.ofExcept _))
    intro _
    apply Among.modify absent_meanwhile absent_meanwhile
    intro s absent
    have elsewhere : ∀ path, path ≠ .queue .groups (ini group.parent.job_id) →
        (s.put (.queue .groups (ini group.parent.job_id)) ⟨bytes, host.millis⟩).get path = s.get path :=
      fun path other => Files.get_put_ne other
    have kept : Absent job_id (s.put (.queue .groups (ini group.parent.job_id)) ⟨bytes, host.millis⟩) := by
      refine ⟨?_, ?_⟩
      · intro directory jobs
        rw [elsewhere _ (by intro same; injection same with directories; exact jobs directories)]
        exact absent.1 directory jobs
      · intro name named listed
        by_cases here : name = ini group.parent.job_id
        · subst here
          obtain ⟨found, read, there, parsed, child, inside, mine⟩ := listed
          obtain ⟨file, held, rfl⟩ := capped_some there
          rw [Files.get_put_self] at held
          obtain rfl := Option.some.inj held
          obtain ⟨written, own, same⟩ := forall₂_right (journal_read text parsed).2 child inside
          exact others written own ((congrArg JobKey.job_id same.key).symm.trans mine)
        · exact absent.2 name named (listed.before (.inr (elsewhere _ (by intro same; injection same; contradiction))))
    exact ⟨kept, kept⟩

theorem enqueueCiWorkflowJobs_absent {parent : CiJobRequest} {children : List CiJobRequest}
    (others : ∀ child ∈ children, child.job_id ≠ job_id) :
    Holds (Absent job_id) (enqueueCiWorkflowJobs host parent children) := by
  apply Holds.next (absent_of_touches (Guarantees.ofExcept _))
  intro _
  apply Holds.ofExcept absent_meanwhile
  intro bytes text
  apply Holds.next (absent_of_touches (Guarantees.reads _))
  intro published
  cases published with
  | some old =>
    exact Holds.next (absent_of_touches (Guarantees.ofExcept _)) fun _ => reconcileWorkflowGroups_absent
  | none =>
    apply Holds.next (absent_of_touches (Guarantees.gets _))
    intro recorded
    apply Holds.next (absent_of_touches (Guarantees.ofExcept _))
    intro _
    apply Holds.next (writeJournal_absent text others)
    intro _
    apply Holds.next reconcileWorkflowGroups_absent
    exact fun _ => absent_of_touches (Guarantees.forEach fun child => supersedeCiJobs_touches host runs_harmless child)

theorem takeJob_absent {runner name : Bytes} {lease_seconds : UInt64} :
    Holds (Absent job_id) (takeJob host runner lease_seconds name) := by
  apply Holds.gets (fun queued => queued.isSome → name ≠ ini job_id) absent_meanwhile
  · intro s absent there same
    rw [same, absent.1 .spool (by decide)] at there
    cases there
  · intro queued other
    split
    · exact absent_of_touches (Guarantees.pure _)
    · next there =>
      have apart : name ≠ ini job_id := other (by cases queued <;> simp_all)
      apply absent_of_touches
      apply (Guarantees.modify (touches_rename (named_harmless (by decide) apart))).bind
      intro _
      apply (Guarantees.gets _).bind
      intro found
      cases found with
      | none =>
        have aside : Harmless job_id (.queue .working (name ++ ascii ".rejected")) :=
          named_harmless (by decide) (rejected_ne name).symm
        exact (Guarantees.modify (touches_rename aside)).bind fun _ => Guarantees.pure _
      | some job =>
        exact (writeFile_touches host _ (named_harmless (by decide) apart)).bind fun _ => Guarantees.pure _

theorem claimFrom_absent {options : CiClaimOptions} {busy pending : List RefHolder} {names : List Bytes}
    (retry_in : Option Int) : Holds (Absent job_id) (claimFrom host options busy pending names retry_in) := by
  induction names generalizing retry_in with
  | nil => exact absent_of_touches (Guarantees.pure _)
  | cons name rest ih =>
    have chosen : Holds (Absent job_id) (chooseEntry host options busy pending name) := by
      apply Holds.next (absent_of_touches (Guarantees.gets _))
      intro found
      cases found with
      | none => exact absent_of_touches (Guarantees.pure _)
      | some queued => exact absent_of_touches (consider_touches host runs_harmless options busy pending name queued)
    apply Holds.next chosen
    intro choice
    cases choice with
    | skip => exact ih retry_in
    | wait milliseconds => exact ih _
    | take =>
      apply Holds.next takeJob_absent
      intro taken
      cases taken with
      | none => exact ih retry_in
      | some claim =>
        apply Holds.next _ fun _ => absent_of_touches (Guarantees.pure _)
        unfold whenever
        split
        · exact reconcileWorkflowGroups_absent
        · exact absent_of_touches (Guarantees.pure _)

theorem claimCiJob_absent {options : CiClaimOptions} : Holds (Absent job_id) (claimCiJob host options) := by
  apply Holds.next (absent_of_touches (Guarantees.ofExcept _))
  intro _
  apply Holds.next reconcileWorkflowGroups_absent
  intro _
  apply Holds.next (absent_of_touches (Guarantees.gets _))
  intro listed
  apply Holds.next (absent_of_touches (Guarantees.gets _))
  intro busy
  apply Holds.next (absent_of_touches (Guarantees.reads _))
  exact fun pending => claimFrom_absent none

/-- Only a claimed job's lease is renewed. -/
theorem renewCiLease_absent {id renewed : Bytes} {lease_seconds : UInt64} :
    Holds (Absent job_id) (renewCiLease host id renewed lease_seconds) := by
  unfold renewCiLease
  split
  · exact absent_of_touches (Guarantees.pure _)
  · apply Holds.gets (fun claimed => claimed = true → id ≠ job_id) absent_meanwhile
    · intro s absent there same
      rw [same, absent.1 .working (by decide)] at there
      cases there
    · intro claimed other
      apply Holds.next (absent_of_touches (Guarantees.gets _))
      intro found
      cases found with
      | none => exact absent_of_touches (Guarantees.pure _)
      | some lease =>
        simp only
        split
        · exact absent_of_touches (Guarantees.pure _)
        · next held =>
          have apart : id ≠ job_id := other (by by_contra unclaimed; exact held (.inl unclaimed))
          exact absent_of_touches ((writeFile_touches host _
            (named_harmless (by decide) fun same => apart (ini_injective same))).bind fun _ => Guarantees.pure _)

theorem releaseCiClaim_absent {id token : Bytes} : Holds (Absent job_id) (releaseCiClaim host id token) := by
  unfold releaseCiClaim
  split
  · exact absent_of_touches (Guarantees.pure _)
  · apply Holds.next (absent_of_touches (Guarantees.gets _))
    intro held
    split
    · exact absent_of_touches (Guarantees.pure _)
    · apply Holds.next (absent_of_touches (unlink_touches _))
      intro _
      apply Holds.next (absent_of_touches (unlink_touches _))
      exact fun _ => Holds.next reconcileWorkflowGroups_absent fun _ => absent_of_touches (Guarantees.pure _)

theorem abandonCiJob_absent {id token runner : Bytes} : Holds (Absent job_id) (abandonCiJob host id token runner) := by
  unfold abandonCiJob
  split
  · exact absent_of_touches (Guarantees.pure _)
  · apply Holds.next (absent_of_touches (Guarantees.gets _))
    intro held
    split
    · exact absent_of_touches (Guarantees.pure _)
    · exact Holds.next requeueLocked_absent fun _ => absent_of_touches (Guarantees.pure _)

theorem reapEntry_absent {options : CiReapOptions} {name : Bytes} :
    Holds (Absent job_id) (reapEntry host options name) := by
  unfold reapEntry
  simp only
  split
  · exact absent_of_touches (Guarantees.pure _)
  · apply Holds.next (absent_of_touches (Guarantees.gets _))
    intro lease
    split
    · exact Holds.next requeueLocked_absent fun _ => absent_of_touches (Guarantees.pure _)
    · exact absent_of_touches (Guarantees.pure _)

theorem reapCiLeases_absent {options : CiReapOptions} : Holds (Absent job_id) (reapCiLeases host options) := by
  apply Holds.next (absent_of_touches (Guarantees.gets _))
  intro names
  apply Among.accumulate meanwhile_refl fun _ => absent_meanwhile
  exact fun _ name _ => Holds.next reapEntry_absent fun _ => absent_of_touches (Guarantees.pure _)

theorem op_absent {call : Call} (others : ¬ call.brings job_id) : Holds (Absent job_id) (call.op host) := by
  cases call with
  | enqueue request => exact absent_of_touches (enqueueCiJob_touches host runs_harmless (queued_harmless others))
  | submit parent children =>
    exact enqueueCiWorkflowJobs_absent fun child inside same => others ⟨child, inside, same⟩
  | refresh => exact reconcileWorkflowGroups_absent
  | claim options => exact claimCiJob_absent.ignore absent_meanwhile
  | renew id renewed lease_seconds => exact renewCiLease_absent.ignore absent_meanwhile
  | release id released => exact releaseCiClaim_absent.ignore absent_meanwhile
  | abandon id abandoned runner => exact abandonCiJob_absent.ignore absent_meanwhile
  | reap options => exact reapCiLeases_absent.ignore absent_meanwhile
  | remove project_name => exact absent_of_touches (removeProjectCi_touches host project_name)

/-- The workflows that list the job are the project's. -/
def OwnedBy (project_name job_id : Bytes) (s : Files) : Prop :=
  ∀ name, isIni name → ∀ bytes group,
    s.readCapped (.queue .groups name) kMaximumWorkflowGroupBytes = .ok (some bytes) →
    parseWorkflowGroup bytes = .ok group → (∃ child ∈ group.children, child.job_id = job_id) →
    group.parent.project_name = project_name

/-- The journals stay, and no job file and no lease appears. -/
structure Quiet (s t : Files) : Prop where
  journals : ∀ name, t.get (.queue .groups name) = s.get (.queue .groups name)
  jobs : ∀ directory name, directory ≠ .groups →
    t.get (.queue directory name) = none ∨ t.get (.queue directory name) = s.get (.queue directory name)

theorem Unlocked.quiet (h : Unlocked s t) : Quiet s t := by
  cases h with
  | runs same => exact ⟨fun name => same _ _, fun directory name _ => .inr (same _ _)⟩
  | releaseCiJob directory name claim =>
    refine ⟨?_, fun other inside _ => get_remove_or s _ _⟩
    intro inside
    apply Files.get_remove_ne
    intro same
    injection same with directories
    rcases claim with working | leases
    · rw [working] at directories
      cases directories
    · rw [leases] at directories
      cases directories

theorem stable_quiet {property : Files → Prop} (stable : Stable Quiet property) : Stable Meanwhile property :=
  stable_meanwhile fun s t other held => stable s t other.quiet held

theorem ListedBy.quiet {name : Bytes} (h : ListedBy name job_id s) (quiet : Quiet s t) : ListedBy name job_id t :=
  h.before (.inr (quiet.journals name).symm)

theorem Cleared.quiet (h : Cleared job_id s) (quiet : Quiet s t) : Cleared job_id t := by
  intro directory jobs
  rcases quiet.jobs directory (ini job_id) jobs with gone | same
  · exact gone
  · rw [same]
    exact h directory jobs

theorem OwnedBy.before {project_name : Bytes} (h : OwnedBy project_name job_id s)
    (fewer : ∀ name, t.get (.queue .groups name) = none ∨ t.get (.queue .groups name) = s.get (.queue .groups name)) :
    OwnedBy project_name job_id t := by
  intro name named bytes group read parsed listed
  rcases fewer name with gone | same
  · obtain ⟨_, held, _⟩ := capped_some read
    rw [gone] at held
    cases held
  · exact h name named bytes group ((Files.readCapped_congr same).symm.trans read) parsed listed

/-- Between two journals of the removal: those visited list the job no more, and its files are
gone unless one is still to come. -/
structure Removing (project_name job_id : Bytes) (names visited : List Bytes) (s : Files) : Prop where
  owned : OwnedBy project_name job_id s
  left : ∀ name, isIni name → ListedBy name job_id s → name ∈ names ∧ name ∉ visited
  clears : (∃ name, isIni name ∧ ListedBy name job_id s) ∨ Cleared job_id s

variable {project_name : Bytes} {names visited : List Bytes}

theorem removing_quiet : Stable Quiet (Removing project_name job_id names visited) := by
  intro s t quiet h
  refine ⟨h.owned.before fun name => .inr (quiet.journals name), ?_, ?_⟩
  · intro name named listed
    exact h.left name named (listed.before (.inr (quiet.journals name)))
  · exact h.clears.imp (fun listed => listed.imp fun name => And.imp_right (ListedBy.quiet · quiet))
      (Cleared.quiet · quiet)

/-- A journal that does not list the job is done with. -/
theorem Removing.visit {file : Bytes} (h : Removing project_name job_id names visited s)
    (unlisted : ¬ ListedBy file job_id s) : Removing project_name job_id names (visited ++ [file]) s := by
  refine ⟨h.owned, ?_, h.clears⟩
  intro name named listed
  obtain ⟨inside, unvisited⟩ := h.left name named listed
  refine ⟨inside, ?_⟩
  rw [List.mem_append, List.mem_singleton, not_or]
  refine ⟨unvisited, ?_⟩
  intro same
  exact unlisted (same ▸ listed)

/-- The journal of a workflow whose children are cleared goes. -/
theorem Removing.remove {file : Bytes} (h : Removing project_name job_id names visited s)
    (cleared : ListedBy file job_id s → Cleared job_id s) :
    Removing project_name job_id names (visited ++ [file]) (s.remove (.queue .groups file)) := by
  have fewer : ∀ name, (s.remove (.queue .groups file)).get (.queue .groups name) = none
      ∨ (s.remove (.queue .groups file)).get (.queue .groups name) = s.get (.queue .groups name) :=
    fun name => get_remove_or s _ _
  have kept : ∀ {name}, name ≠ file → (s.remove (.queue .groups file)).get (.queue .groups name)
      = s.get (.queue .groups name) := by
    intro name other
    apply Files.get_remove_ne
    intro same
    injection same with _ names
    exact other names
  have jobs : Cleared job_id s → Cleared job_id (s.remove (.queue .groups file)) := by
    intro clear directory jobs
    rw [Files.get_remove_ne (by intro same; injection same with directories; exact jobs directories)]
    exact clear directory jobs
  have gone : ¬ ListedBy file job_id (s.remove (.queue .groups file)) := by
    rintro ⟨_, _, read, _⟩
    obtain ⟨_, held, _⟩ := capped_some read
    rw [Files.get_remove_self] at held
    cases held
  have rest : Removing project_name job_id names visited (s.remove (.queue .groups file)) := by
    refine ⟨h.owned.before fewer, fun name named listed => h.left name named (listed.before (fewer name)), ?_⟩
    rcases h.clears with ⟨name, named, listed⟩ | clear
    · by_cases same : name = file
      · subst same
        exact .inr (jobs (cleared listed))
      · exact .inl ⟨name, named, listed.before (.inr (kept same).symm)⟩
    · exact .inr (jobs clear)
  exact rest.visit gone

theorem quiet_remove {directory : Directory} (jobs : directory ≠ .groups) (name : Bytes) (s : Files) :
    Quiet s (s.remove (.queue directory name)) := by
  refine ⟨?_, fun other inside _ => get_remove_or s _ _⟩
  intro inside
  apply Files.get_remove_ne
  intro same
  injection same with directories
  exact jobs directories.symm

variable {kept : Files → Prop}

/-- The operation brings the second from the first, whatever happens to the run directories. -/
abbrev Brings (before : Files → Prop) {α : Type} (p : Op α) (after : α → Files → Prop) : Prop :=
  Among Meanwhile (fun _ _ => True) before p after fun _ => True

theorem unlink_directories (stable : Stable Quiet kept) (name : Bytes) {directories : List Directory}
    (jobs : ∀ directory ∈ directories, directory ≠ .groups) :
    Brings kept (forEach directories fun directory => unlink (.queue directory name))
      fun _ s => kept s ∧ ∀ directory ∈ directories, s.get (.queue directory name) = none := by
  induction directories generalizing kept with
  | nil => exact Among.done (stable_quiet stable) fun s held => ⟨held, by simp⟩
  | cons directory rest ih =>
    have apart := jobs directory List.mem_cons_self
    have lasting : Stable Quiet fun s => kept s ∧ s.get (.queue directory name) = none := by
      intro s t quiet held
      refine ⟨stable s t quiet held.1, ?_⟩
      rcases quiet.jobs directory name apart with gone | same
      · exact gone
      · exact same.trans held.2
    have first : Brings kept (unlink (.queue directory name))
        fun _ s => kept s ∧ s.get (.queue directory name) = none := by
      apply Among.modify (stable_quiet stable) (stable_quiet lasting)
      exact fun s held => ⟨trivial, stable s _ (quiet_remove apart name s) held, Files.get_remove_self⟩
    apply Among.bind meanwhile_refl first
    intro _
    apply (ih lasting fun other inside => jobs other (List.mem_cons_of_mem directory inside)).mono (fun _ held => held)
      _ fun _ failed => failed
    intro _ s held
    refine ⟨held.1.1, ?_⟩
    intro other inside
    rcases List.mem_cons.mp inside with rfl | later
    · exact held.1.2
    · exact held.2 other later

theorem unlink_children (stable : Stable Quiet kept) (children : List CiJobRequest) :
    Brings kept (forEach children fun child =>
        forEach [.working, .leases, .spool] fun directory => unlink (.queue directory (ini child.job_id)))
      fun _ s => kept s ∧ ∀ child ∈ children, Cleared child.job_id s := by
  induction children generalizing kept with
  | nil => exact Among.done (stable_quiet stable) fun s held => ⟨held, by simp⟩
  | cons child rest ih =>
    have first : Brings kept (forEach [.working, .leases, .spool] fun directory =>
        unlink (.queue directory (ini child.job_id))) fun _ s => kept s ∧ Cleared child.job_id s := by
      have files := @unlink_directories _ stable (ini child.job_id) [.working, .leases, .spool] (by decide)
      apply files.mono (fun _ held => held) _ fun _ failed => failed
      intro _ s held
      refine ⟨held.1, ?_⟩
      intro directory jobs
      apply held.2
      cases directory <;> simp_all
    have lasting : Stable Quiet fun s => kept s ∧ Cleared child.job_id s :=
      fun s t quiet held => ⟨stable s t quiet held.1, held.2.quiet quiet⟩
    apply Among.bind meanwhile_refl first
    intro _
    apply (ih lasting).mono (fun _ held => held) _ fun _ failed => failed
    intro _ s held
    refine ⟨held.1.1, ?_⟩
    intro other inside
    rcases List.mem_cons.mp inside with rfl | later
    · exact held.1.2
    · exact held.2 other later

/-- The journal of this name, as the removal has read it. -/
def Journal (file : Bytes) (held : Option Bytes) (s : Files) : Prop :=
  s.readCapped (.queue .groups file) kMaximumWorkflowGroupBytes = .ok held

theorem removeGroup_removes {file : Bytes} (named : isIni file) :
    Brings (Removing project_name job_id names visited) (removeGroup project_name file)
      fun _ => Removing project_name job_id names (visited ++ [file]) := by
  have known : ∀ held, Stable Quiet fun s => Removing project_name job_id names visited s ∧ Journal file held s :=
    fun held s t quiet h => ⟨removing_quiet s t quiet h.1, (Files.readCapped_congr (quiet.journals file)).trans h.2⟩
  have read : Brings (Removing project_name job_id names visited)
      (Prog.reads (·.readCapped (.queue .groups file) kMaximumWorkflowGroupBytes))
      fun held s => Removing project_name job_id names visited s ∧ Journal file held s :=
    Among.reads (stable_quiet removing_quiet) (fun held => stable_quiet (known held))
      (fun s held h read => ⟨h, read⟩) fun _ _ => trivial
  apply Among.bind meanwhile_refl read
  intro held
  cases held with
  | none =>
    apply Among.done (stable_quiet (known none))
    intro s h
    apply h.1.visit
    rintro ⟨bytes, _, there, _⟩
    rw [h.2] at there
    cases there
  | some bytes =>
    have parse : Brings (fun s => Removing project_name job_id names visited s ∧ Journal file (some bytes) s)
        (Prog.ofExcept (parseWorkflowGroup bytes)) fun group s => parseWorkflowGroup bytes = .ok group
          ∧ Removing project_name job_id names visited s ∧ Journal file (some bytes) s :=
      known_ofExcept (stable_quiet (known (some bytes))) fun _ _ => trivial
    apply Among.bind meanwhile_refl parse
    intro group
    apply Among.given
    intro parsed
    have lists : ∀ s, Journal file (some bytes) s → ListedBy file job_id s →
        ∃ child ∈ group.children, child.job_id = job_id := by
      rintro s journal ⟨found, other, there, read, listed⟩
      rw [journal] at there
      obtain rfl := Option.some.inj (Except.ok.inj there)
      rw [parsed] at read
      obtain rfl := Except.ok.inj read
      exact listed
    unfold whenever
    split
    · apply Among.bind meanwhile_refl (unlink_children (known (some bytes)) group.children)
      intro _
      apply Among.modify
      · exact stable_quiet fun s t quiet h => ⟨known _ s t quiet h.1, fun child inside =>
          (h.2 child inside).quiet quiet⟩
      · exact stable_quiet removing_quiet
      · intro s h
        refine ⟨trivial, h.1.1.remove ?_⟩
        intro listed
        obtain ⟨child, inside, rfl⟩ := lists s h.1.2 listed
        exact h.2 child inside
    · next others =>
      apply Among.done (stable_quiet (known (some bytes)))
      intro s h
      apply h.1.visit
      intro listed
      exact others (h.1.owned file named bytes group h.2 parsed (lists s h.2 listed))

theorem removeGroups_removes {rest : List Bytes} (named : ∀ file ∈ rest, isIni file) :
    Brings (Removing project_name job_id names visited) (forEach rest (removeGroup project_name))
      fun _ => Removing project_name job_id names (visited ++ rest) := by
  induction rest generalizing visited with
  | nil =>
    rw [List.append_nil]
    exact Among.done (stable_quiet removing_quiet) fun _ held => held
  | cons file rest ih =>
    apply Among.bind meanwhile_refl (removeGroup_removes (named file List.mem_cons_self))
    intro _
    have later := @ih (visited ++ [file]) fun other inside => named other (List.mem_cons_of_mem file inside)
    rwa [List.append_assoc] at later

/-- A removal that returns leaves nothing of the jobs of the project's workflows. -/
theorem removeProjectCi_removes : Brings
    (fun s => OwnedBy project_name job_id s ∧ ∃ name, isIni name ∧ ListedBy name job_id s)
    (removeProjectCi host project_name) fun _ => Absent job_id := by
  have start : Stable Quiet fun s => OwnedBy project_name job_id s ∧ ∃ name, isIni name ∧ ListedBy name job_id s :=
    fun s t quiet h => ⟨h.1.before fun name => .inr (quiet.journals name),
      h.2.imp fun name => And.imp_right (ListedBy.quiet · quiet)⟩
  have valid := @Among.ofExcept _ _ _ Meanwhile (fun _ _ => True) _ (fun _ => True) (fun _ => _)
    (failIf (¬ isValidProjectName project_name) "invalid project name for CI removal") (stable_quiet start)
    (fun _ _ _ held => held) fun _ _ => trivial
  apply Among.bind meanwhile_refl valid
  intro _
  have listing : Brings
      (fun s => OwnedBy project_name job_id s ∧ ∃ name, isIni name ∧ ListedBy name job_id s)
      (Prog.gets (·.names .groups)) fun files => Removing project_name job_id ((host.order files).filter isIni) [] := by
    apply Among.gets (stable_quiet start) fun _ => stable_quiet removing_quiet
    intro s h
    refine ⟨h.1, ?_, .inl h.2⟩
    rintro name named ⟨_, _, read, _⟩
    refine ⟨List.mem_filter.mpr ⟨(host.order_perm _).mem_iff.mpr ?_, named⟩, List.not_mem_nil⟩
    obtain ⟨_, held, _⟩ := capped_some read
    exact mem_names (by rw [held]; rfl)
  apply Among.bind meanwhile_refl listing
  intro files
  have named : ∀ file ∈ (host.order files).filter isIni, isIni file := fun file inside => (List.mem_filter.mp inside).2
  apply Among.bind meanwhile_refl (removeGroups_removes named)
  intro _
  have quit : ∀ s, Removing project_name job_id ((host.order files).filter isIni)
      ([] ++ (host.order files).filter isIni) s → Absent job_id s := by
    intro s h
    have unlisted : ∀ name, isIni name → ¬ ListedBy name job_id s := by
      intro name named listed
      obtain ⟨inside, unvisited⟩ := h.left name named listed
      exact unvisited inside
    refine ⟨h.clears.resolve_left ?_, unlisted⟩
    rintro ⟨name, named, listed⟩
    exact unlisted name named listed
  have runs : Guarantees (Touches (Harmless job_id)) (removeRuns project_name) :=
    (Guarantees.gets _).bind fun _ => Guarantees.forEach fun path => unlink_touches path
  exact (runs.among absent_meanwhile absent_touches fun _ _ _ _ => trivial).mono quit (fun _ _ held => held)
    fun _ _ => trivial

/-- Once removeProjectCi returned, the jobs of the project's workflows are gone for good: until someone
queues such a job again nothing queues or claims it, and whoever held its lease can do nothing with it. -/
theorem removed_jobs_stay_away {server : Server} (owned : OwnedBy project_name job_id s)
    (listed : ∃ name, isIni name ∧ ListedBy name job_id s)
    (removal : ReflTransGen (Step fun _ _ => False) ⟨s, some (removeProjectCi host project_name)⟩ ⟨t, some (.done ())⟩)
    (later : ReflTransGen (Step fun _ call => ¬ call.brings job_id) ⟨t, none⟩ server) :
    Absent job_id server.files ∧ loadCiClaim server.files job_id = none
      ∧ ∀ host token runner lease_seconds,
        (renewCiLease host job_id token lease_seconds).exec server.files = (.ok false, server.files)
        ∧ (releaseCiClaim host job_id token).exec server.files = (.ok false, server.files)
        ∧ (abandonCiJob host job_id token runner).exec server.files = (.ok false, server.files) := by
  have removed : Absent job_id t := returned_after (removeProjectCi_removes.runs s ⟨owned, listed⟩) removal
  have stays : Absent job_id server.files :=
    holds_throughout (fun s t other held => absent_touches s t (other.touches runs_harmless) held)
      (fun host call others => op_absent others) removed later
  have unleased : readLeaseAt server.files job_id = none := by
    simp [readLeaseAt, Files.readAs, Files.readCapped, stays.1 .leases (by decide)]
  refine ⟨stays, ?_, ?_⟩
  · unfold loadCiClaim
    split
    · have unread := @Cleared.unread _ _ stays.1 .working (by decide)
      simp [unread]
    · rfl
  · intro host token runner lease_seconds
    have lost : Displaced job_id token server.files := by
      intro lease found
      rw [unleased] at found
      cases found
    exact ⟨renewCiLease_refused lost host lease_seconds, releaseCiClaim_refused lost host,
      abandonCiJob_refused lost host runner⟩

/-- The workflow of one job, submitted to an empty store. -/
def submittedFiles : Files :=
  ((enqueueCiWorkflowJobs firstHost firstWorkflow.parent firstWorkflow.children).exec ∅).2

/-- The workflow of a journal, as the store reads it. -/
def journalAt (s : Files) (name : Bytes) : Option WorkflowGroup := do
  let held ← (s.readCapped (.queue .groups name) kMaximumWorkflowGroupBytes).toOption
  let bytes ← held
  (parseWorkflowGroup bytes).toOption

private theorem listed_of_journal {name : Bytes}
    (listed : (journalAt s name).any (fun group => group.children.any (·.job_id == job_id)) = true) :
    ListedBy name job_id s := by
  unfold journalAt at listed
  cases read : s.readCapped (.queue .groups name) kMaximumWorkflowGroupBytes with
  | error error => simp [read, Except.toOption] at listed
  | ok held =>
    cases held with
    | none => simp [read, Except.toOption] at listed
    | some bytes =>
      cases parsed : parseWorkflowGroup bytes with
      | error error => simp [read, parsed, Except.toOption] at listed
      | ok group =>
        refine ⟨bytes, group, read, parsed, ?_⟩
        simpa [read, parsed, Except.toOption] using listed

private theorem owned_of_journal {only : Bytes} (alone : s.names .groups = [only])
    (owner : (journalAt s only).all (·.parent.project_name == project_name) = true) :
    OwnedBy project_name job_id s := by
  intro name _ bytes group read parsed _
  obtain ⟨_, held, _⟩ := capped_some read
  have inside := mem_names (by rw [held]; rfl)
  rw [alone, List.mem_singleton] at inside
  subst inside
  simpa [journalAt, read, parsed, Except.toOption] using owner

def claimAny : Call := .claim { protocol_version := 2, runner := ascii "r", lease_seconds := 60 }

/-- The job of the workflow is claimed. -/
def runningFiles : Files := ((claimAny.op firstHost).exec submittedFiles).2

/-- A job of another project. -/
def strangerJob : CiJobRequest := { firstJob with job_id := ascii "5", project_name := ascii "q" }

/-- The project's files are removed. -/
def removedFiles : Files := ((removeProjectCi firstHost (ascii "p")).exec runningFiles).2

def queuedFiles : Files := (((Call.enqueue strangerJob).op firstHost).exec removedFiles).2

def laterFiles : Files := ((claimAny.op firstHost).exec queuedFiles).2

private theorem running_table : (loadCiClaim runningFiles (ascii "1")).isSome = true
      ∧ runningFiles.names .groups = [ini (ascii "0")]
      ∧ (journalAt runningFiles (ini (ascii "0"))).all (·.parent.project_name == ascii "p") = true
      ∧ (journalAt runningFiles (ini (ascii "0"))).any (fun group => group.children.any (·.job_id == ascii "1")) = true
      ∧ ((removeProjectCi firstHost (ascii "p")).exec runningFiles).1.isOk = true
      ∧ (((Call.enqueue strangerJob).op firstHost).exec removedFiles).1.isOk = true
      ∧ ((claimAny.op firstHost).exec queuedFiles).1.isOk = true
      ∧ (loadCiClaim laterFiles (ascii "5")).isSome = true := by
  decide +kernel

/-- The project is removed while its job runs; the runner's lease is worth nothing afterwards, also when the
next job has been queued and claimed. -/
theorem removed_jobs_stay_away_running :
    (loadCiClaim runningFiles (ascii "1")).isSome = true
      ∧ ∃ later, (loadCiClaim later (ascii "5")).isSome = true ∧ loadCiClaim later (ascii "1") = none
        ∧ (renewCiLease firstHost (ascii "1") firstHost.token 60).exec later = (.ok false, later) := by
  obtain ⟨running, alone, owner, member, removed, queued, claimed, held⟩ := running_table
  have owned : OwnedBy (ascii "p") (ascii "1") runningFiles := @owned_of_journal _ _ _ (ini (ascii "0")) alone owner
  have listed : ListedBy (ini (ascii "0")) (ascii "1") runningFiles := listed_of_journal member
  have path : ReflTransGen (Step fun _ call => ¬ call.brings (ascii "1")) ⟨removedFiles, none⟩ ⟨laterFiles, none⟩ :=
    (@performed _ _ firstHost (.enqueue strangerJob) (by intro same; cases same) (returned_of_isOk queued)).trans
      (@performed _ _ firstHost claimAny not_false (returned_of_isOk claimed))
  obtain ⟨_, unclaimed, refused⟩ := removed_jobs_stay_away owned ⟨_, isIni_ini _, listed⟩
    (undisturbed (returned_of_isOk removed)) path
  exact ⟨running, laterFiles, held, unclaimed, (refused firstHost firstHost.token (ascii "r") 60).1⟩

end CkGit.Store.Locking
