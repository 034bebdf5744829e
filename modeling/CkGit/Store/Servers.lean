import CkGit.Base.Inevitable
import CkGit.Base.Interference
import CkGit.Store.Attempts

/-!
The processes of the server over one CI state. Whoever holds the spool lock runs
one operation, write by write, and may die between two of them. Meanwhile the
others work without the lock: on run directories, and releaseCiJob on the two
files of a job it ends.
-/
namespace CkGit.Store
open CkGit.Base CkGit.Ci Prog Relation

variable {s t u : Files}

theorem returned_of_isOk {p : Op Unit} (fine : (p.exec s).1.isOk = true) : (p.exec s).1 = .ok () := by
  cases outcome : (p.exec s).1 with
  | ok _ => rfl
  | error error =>
    rw [outcome] at fine
    cases fine

/-- Only files of the footprint appear or change. -/
def Touches (footprint : Path → Prop) (s t : Files) : Prop :=
  ∀ path, ¬ footprint path → t.get path = none ∨ t.get path = s.get path

section
variable {footprint : Path → Prop}

theorem Touches.refl (s : Files) : Touches footprint s s := fun _ _ => .inr rfl

theorem Touches.trans (first : Touches footprint s t) (second : Touches footprint t u) : Touches footprint s u := by
  intro path outside
  rcases second path outside with gone | same
  · exact .inl gone
  · rw [same]
    exact first path outside

theorem touches_put {path : Path} {file : File} (inside : footprint path) (s : Files) :
    Touches footprint s (s.put path file) := by
  intro other outside
  apply Or.inr
  apply Files.get_put_ne
  intro same
  exact outside (same ▸ inside)

theorem get_remove_or (s : Files) (path other : Path) :
    (s.remove path).get other = none ∨ (s.remove path).get other = s.get other := by
  rw [Files.get_remove]
  split
  · exact .inl rfl
  · exact .inr rfl

theorem touches_remove (path : Path) (s : Files) : Touches footprint s (s.remove path) :=
  fun other _ => get_remove_or s path other

theorem touches_rename {source target : Path} (inside : footprint target) (s : Files) :
    Touches footprint s (s.rename source target) := by
  unfold Files.rename
  split
  · exact .refl s
  · intro other outside
    have apart : other ≠ target := by
      intro same
      exact outside (same ▸ inside)
    rw [Files.get_put_ne apart]
    exact get_remove_or s source other

variable (host : Host)

theorem writeFile_touches {path : Path} (bytes : Bytes) (inside : footprint path) :
    Guarantees (Touches footprint) (writeFile host path bytes) := Guarantees.modify (touches_put inside)

theorem unlink_touches (path : Path) : Guarantees (Touches footprint) (unlink path) :=
  Guarantees.modify (touches_remove path)

theorem removeAll_touches (project_name run_id : Bytes) (below : RunFile → Bool) :
    Guarantees (Touches footprint) (removeAll project_name run_id below) :=
  (Guarantees.gets _).bind fun _ => Guarantees.forEach fun path => unlink_touches path

theorem removeGroup_touches (project_name file : Bytes) :
    Guarantees (Touches footprint) (removeGroup project_name file) := by
  apply (Guarantees.reads _).bind
  intro held
  cases held with
  | none => exact Guarantees.pure _
  | some bytes =>
    apply (Guarantees.ofExcept _).bind
    intro group
    apply Guarantees.whenever
    exact (Guarantees.forEach fun child => Guarantees.forEach fun directory => unlink_touches _).bind fun _ =>
      unlink_touches _

theorem removeProjectCi_touches (project_name : Bytes) :
    Guarantees (Touches footprint) (removeProjectCi host project_name) := by
  apply (Guarantees.ofExcept _).bind
  intro _
  apply (Guarantees.gets _).bind
  intro files
  apply (Guarantees.forEach fun file => removeGroup_touches project_name file).bind
  exact fun _ => (Guarantees.gets _).bind fun _ => Guarantees.forEach fun path => unlink_touches path

variable (runs : ∀ project_name run_id file, footprint (.run project_name run_id file))
include runs

theorem ensureRunDir_touches (project_name run_id : Bytes) :
    Guarantees (Touches footprint) (ensureRunDir host project_name run_id) :=
  (Guarantees.gets _).bind fun _ => (writeFile_touches host [] (runs _ _ _)).whenever

theorem prepareCiRunDirectory_touches (project_name run_id : Bytes) :
    Guarantees (Touches footprint) (prepareCiRunDirectory host project_name run_id) :=
  (Guarantees.ofExcept _).bind fun _ => (Guarantees.ofExcept _).bind fun _ => ensureRunDir_touches host runs _ _

theorem writeCiRunRecord_touches (record : CiRunRecord) :
    Guarantees (Touches footprint) (writeCiRunRecord host record) :=
  (Guarantees.ofExcept _).bind fun _ => (ensureRunDir_touches host runs _ _).bind fun _ =>
    writeFile_touches host _ (runs _ _ _)

theorem requestCiCancel_touches (project_name run_id : Bytes) :
    Guarantees (Touches footprint) (requestCiCancel host project_name run_id) := by
  apply (Guarantees.ofExcept _).bind
  intro _
  apply (Guarantees.gets _).bind
  intro present
  split
  · exact Guarantees.pure _
  · exact (Guarantees.reads _).bind fun _ => (writeFile_touches host _ (runs _ _ _)).whenever.bind fun _ =>
      Guarantees.pure _

theorem cancelQueuedJob_touches (job : CiJobRequest) (detail : Bytes) (terminal : CiRunStatus) :
    Guarantees (Touches footprint) (cancelQueuedJob host job detail terminal) :=
  (Guarantees.gets _).bind fun _ => (prepareCiRunDirectory_touches host runs _ _).bind fun _ =>
    (writeCiRunRecord_touches host runs _).bind fun _ => unlink_touches _

theorem cancelUnpublished_touches (request : CiJobRequest) :
    Guarantees (Touches footprint) (cancelUnpublished host request) :=
  (Guarantees.reads _).bind fun _ => Guarantees.forEach fun _ => ((requestCiCancel_touches host runs _ _).bind fun _ =>
    Guarantees.pure _).whenever

theorem supersedeJob_touches (request : CiJobRequest) (directory : Directory) (old : CiJobRequest) :
    Guarantees (Touches footprint) (supersedeJob host request directory old) := by
  apply ((requestCiCancel_touches host runs _ _).bind fun _ => Guarantees.pure _).whenever.bind
  intro _
  split
  · exact (cancelQueuedJob_touches host runs _ _ _).whenever
  · split
    · exact Guarantees.pure _
    · split
      · exact cancelQueuedJob_touches host runs _ _ _
      · exact (Guarantees.gets _).bind fun _ => ((requestCiCancel_touches host runs _ _).bind fun _ =>
        Guarantees.pure _).whenever

theorem supersedeEntry_touches (request : CiJobRequest) (directory : Directory) (name : Bytes) :
    Guarantees (Touches footprint) (supersedeEntry host request directory name) := by
  apply (Guarantees.gets _).bind
  intro found
  cases found with
  | none => exact Guarantees.pure _
  | some old => exact (supersedeJob_touches host runs request directory old).whenever

theorem supersedeCiJobs_touches (request : CiJobRequest) :
    Guarantees (Touches footprint) (supersedeCiJobs host request) := by
  apply Guarantees.whenever
  apply (cancelUnpublished_touches host runs request).whenever.bind
  intro _
  exact Guarantees.forEach fun directory => (Guarantees.gets _).bind fun _ => Guarantees.forEach fun name =>
    supersedeEntry_touches host runs request directory name

theorem touches_logsAside (project_name run_id : Bytes) (attempt : Nat) (s : Files) :
    Touches footprint s (logsAside project_name run_id attempt s) := by
  unfold logsAside
  apply List.foldlRecOn s.paths _ (Touches.refl s)
  intro t moved path _
  split
  · split
    · exact moved.trans (touches_rename (runs _ _ _) t)
    · exact moved
  · exact moved

theorem resetRunForRequeue_touches (job : CiJobRequest) (lost_attempt : UInt32) (detail : Bytes) :
    Guarantees (Touches footprint) (resetRunForRequeue host job lost_attempt detail) := by
  apply Guarantees.bestEffort
  apply (prepareCiRunDirectory_touches host runs _ _).bind
  intro _
  apply (removeAll_touches _ _ _).bind
  intro _
  apply (Guarantees.modify (touches_logsAside runs _ _ _)).bind
  intro _
  apply (removeAll_touches _ _ _).bind
  intro _
  apply (removeAll_touches _ _ _).bind
  exact fun _ => writeCiRunRecord_touches host runs _

theorem requeueJob_touches {job_id : Bytes} (queued : footprint (.queue .spool (ini job_id))) (job : CiJobRequest)
    (runner : Bytes) (enforce_limit : Bool) (max_attempts : UInt32) :
    Guarantees (Touches footprint) (requeueJob host job_id job runner enforce_limit max_attempts) := by
  unfold requeueJob
  split
  · apply ((Guarantees.gets _).bind fun _ => writeCiRunRecord_touches host runs _).bestEffort.bind
    exact fun _ => (unlink_touches _).bind fun _ => (unlink_touches _).bind fun _ => Guarantees.pure _
  · apply (resetRunForRequeue_touches host runs _ _ _).bind
    intro _
    apply (writeFile_touches host _ queued).bind
    exact fun _ => (unlink_touches _).bind fun _ => (unlink_touches _).bind fun _ => Guarantees.pure _

theorem requeueLocked_touches {job_id : Bytes} (queued : footprint (.queue .spool (ini job_id)))
    (aside : footprint (.queue .working (ini job_id ++ ascii ".rejected"))) (runner : Bytes) (enforce_limit : Bool)
    (max_attempts : UInt32) :
    Guarantees (Touches footprint) (requeueLocked host job_id runner enforce_limit max_attempts) := by
  apply (Guarantees.gets _).bind
  intro found
  cases found with
  | none => exact (Guarantees.modify (touches_rename aside)).bind fun _ => (unlink_touches _).bind fun _ =>
    Guarantees.pure _
  | some job =>
    apply (Guarantees.gets _).bind
    intro settled
    apply (Guarantees.gets _).bind
    intro cancelled
    split
    · exact (Guarantees.forEach fun _ => unlink_touches _).bind fun _ => Guarantees.pure _
    · split
      · apply (cancelQueuedJob_touches host runs _ _ _).bind
        exact fun _ => (unlink_touches _).bind fun _ => (unlink_touches _).bind fun _ =>
          (unlink_touches _).whenever.bind fun _ => Guarantees.pure _
      · exact requeueJob_touches host runs queued _ _ _ _

theorem enqueueCiJob_touches {request : CiJobRequest} (queued : footprint (.queue .spool (ini request.job_id))) :
    Guarantees (Touches footprint) (enqueueCiJob host request) := by
  apply (Guarantees.ofExcept _).bind
  intro _
  apply (writeFile_touches host _ queued).bind
  intro _
  apply ((prepareCiRunDirectory_touches host runs _ _).bind fun _ =>
    writeCiRunRecord_touches host runs _).bestEffort.bind
  exact fun _ => supersedeCiJobs_touches host runs request

theorem childRecord_touches (parent child : CiJobRequest) :
    Guarantees (Touches footprint) (childRecord host parent child) := by
  apply (Guarantees.gets _).bind
  intro found
  cases found with
  | none => exact (writeCiRunRecord_touches host runs _).bind fun _ => Guarantees.pure _
  | some record => exact (Guarantees.ofExcept _).bind fun _ => Guarantees.pure _

theorem reviveChild_touches {child : CiJobRequest} (queued : footprint (.queue .spool (ini child.job_id)))
    (record : CiRunRecord) (held : Bool) : Guarantees (Touches footprint) (reviveChild host child record held) := by
  unfold reviveChild
  split
  · exact Guarantees.pure _
  · apply (Guarantees.gets _).bind
    intro _
    apply (writeFile_touches host _ queued).whenever.bind
    intro _
    apply (Guarantees.gets _).bind
    intro cancelled
    split
    · exact (cancelQueuedJob_touches host runs _ _ _).bind fun _ => (Guarantees.gets _).bind fun _ =>
        Guarantees.ofExcept _
    · exact Guarantees.pure _

theorem reconcileChild_touches {child : CiJobRequest} (queued : footprint (.queue .spool (ini child.job_id)))
    (parent : CiJobRequest) : Guarantees (Touches footprint) (reconcileChild host parent child) := by
  apply (childRecord_touches host runs parent child).bind
  intro record
  apply (Guarantees.gets _).bind
  intro held
  apply (reviveChild_touches host runs queued record held).bind
  exact fun _ => (unlink_touches _).whenever.bind fun _ => Guarantees.pure _

theorem publishGroup_touches (parent : CiJobRequest) (bytes : Bytes) :
    Guarantees (Touches footprint) (publishGroup host parent bytes) := by
  apply (prepareCiRunDirectory_touches host runs _ _).bind
  intro _
  apply (Guarantees.reads _).bind
  intro existing
  cases existing with
  | none => exact (writeFile_touches host _ (runs _ _ _)).bind fun _ => (Guarantees.gets _).bind fun _ =>
    (writeCiRunRecord_touches host runs _).whenever
  | some bytes => exact (Guarantees.ofExcept _).bind fun _ => (Guarantees.gets _).bind fun _ =>
    (writeCiRunRecord_touches host runs _).whenever

theorem consider_touches (options : CiClaimOptions) (busy pending : List RefHolder) (name : Bytes)
    (queued : CiJobRequest) : Guarantees (Touches footprint) (consider host options busy pending name queued) := by
  apply (Guarantees.gets _).bind
  intro cancelled
  split
  · exact (cancelQueuedJob_touches host runs _ _ _).bind fun _ => Guarantees.pure _
  · split
    · exact Guarantees.pure _
    · apply (Guarantees.gets _).bind
      intro needs
      split
      · exact (cancelQueuedJob_touches host runs _ _ _).bind fun _ => Guarantees.pure _
      · split
        · exact Guarantees.pure _
        · exact (Guarantees.gets _).bind fun _ => Guarantees.pure _

end

/-- A file of no claimed job and of no lease. -/
def Unclaimed (path : Path) : Prop :=
  ∀ name, (isIni name → path ≠ .queue .working name) ∧ path ≠ .queue .leases name

/-- No claim begins: what working/ and leases/ hold was there before. -/
abbrev Ends : Files → Files → Prop := Touches Unclaimed

theorem Ends.working (h : Ends s t) (name : Bytes) (named : isIni name) :
    t.get (.queue .working name) = none ∨ t.get (.queue .working name) = s.get (.queue .working name) :=
  h _ fun free => (free name).1 named rfl

theorem Ends.leases (h : Ends s t) (name : Bytes) :
    t.get (.queue .leases name) = none ∨ t.get (.queue .leases name) = s.get (.queue .leases name) :=
  h _ fun free => (free name).2 rfl

theorem runs_unclaimed (project_name run_id : Bytes) (file : RunFile) : Unclaimed (.run project_name run_id file) :=
  fun _ => ⟨by simp, by simp⟩

theorem spool_unclaimed (name : Bytes) : Unclaimed (.queue .spool name) :=
  fun _ => ⟨by simp, by simp⟩

theorem groups_unclaimed (name : Bytes) : Unclaimed (.queue .groups name) :=
  fun _ => ⟨by simp, by simp⟩

theorem ini_of_isIni {name : Bytes} (h : isIni name) : ∃ id, name = ini id := by
  obtain ⟨id, same⟩ := List.isSuffixOf_iff_suffix.mp h
  exact ⟨id, same.symm⟩

theorem aside_unclaimed (name : Bytes) : Unclaimed (.queue .working (name ++ ascii ".rejected")) := by
  intro other
  refine ⟨?_, by simp⟩
  intro held same
  obtain ⟨id, rfl⟩ := ini_of_isIni held
  injection same with _ named
  exact rejected_ne name named.symm

variable (host : Host)
theorem requeueLocked_ends (job_id runner : Bytes) (enforce_limit : Bool) (max_attempts : UInt32) :
    Guarantees Ends (requeueLocked host job_id runner enforce_limit max_attempts) :=
  requeueLocked_touches host runs_unclaimed (spool_unclaimed _) (aside_unclaimed _) runner enforce_limit max_attempts

theorem reconcileGroup_ends (file : Bytes) : Guarantees Ends (reconcileGroup host file) := by
  apply (Guarantees.reads _).bind
  intro held
  cases held with
  | none => exact Guarantees.pure _
  | some bytes =>
    apply (Guarantees.ofExcept _).bind
    intro group
    apply (Guarantees.ofExcept _).bind
    intro _
    apply (publishGroup_touches host runs_unclaimed group.parent bytes).bind
    intro _
    apply Guarantees.bind (Guarantees.accumulate fun _ child =>
      (reconcileChild_touches host runs_unclaimed (spool_unclaimed _) group.parent).bind fun _ => Guarantees.pure _)
    intro progress
    apply (Guarantees.forEach fun child => supersedeCiJobs_touches host runs_unclaimed child).bind
    intro _
    exact (writeCiRunRecord_touches host runs_unclaimed _).bind fun _ => (unlink_touches _).whenever

theorem reconcileWorkflowGroups_ends : Guarantees Ends (reconcileWorkflowGroups host) :=
  (Guarantees.gets _).bind fun _ => Guarantees.forEach fun file => reconcileGroup_ends host file

theorem enqueueCiWorkflowJobs_ends (parent : CiJobRequest) (children : List CiJobRequest) :
    Guarantees Ends (enqueueCiWorkflowJobs host parent children) := by
  apply (Guarantees.ofExcept _).bind
  intro _
  apply (Guarantees.ofExcept _).bind
  intro bytes
  apply (Guarantees.reads _).bind
  intro published
  cases published with
  | some old => exact (Guarantees.ofExcept _).bind fun _ => reconcileWorkflowGroups_ends host
  | none =>
    apply (Guarantees.gets _).bind
    intro recorded
    apply (Guarantees.ofExcept _).bind
    intro _
    have journal : Guarantees Ends (writeJournal host { parent, children } bytes) := by
      apply (Guarantees.reads _).bind
      intro existing
      cases existing with
      | some existing => exact Guarantees.ofExcept _
      | none => exact (Guarantees.gets _).bind fun _ => (Guarantees.ofExcept _).bind fun _ =>
        writeFile_touches host _ (groups_unclaimed _)
    apply journal.bind
    intro _
    exact (reconcileWorkflowGroups_ends host).bind fun _ => Guarantees.forEach fun child =>
      supersedeCiJobs_touches host runs_unclaimed child

theorem releaseCiClaim_ends (job_id token : Bytes) : Guarantees Ends (releaseCiClaim host job_id token) := by
  unfold releaseCiClaim
  split
  · exact Guarantees.pure _
  · apply (Guarantees.gets _).bind
    intro held
    split
    · exact Guarantees.pure _
    · apply (unlink_touches _).bind
      exact fun _ => (unlink_touches _).bind fun _ => (reconcileWorkflowGroups_ends host).bind fun _ =>
        Guarantees.pure _

theorem abandonCiJob_ends (job_id token runner : Bytes) :
    Guarantees Ends (abandonCiJob host job_id token runner) := by
  unfold abandonCiJob
  split
  · exact Guarantees.pure _
  · apply (Guarantees.gets _).bind
    intro held
    split
    · exact Guarantees.pure _
    · exact (requeueLocked_ends host _ _ _ _).bind fun _ => Guarantees.pure _

theorem reapEntry_ends (options : CiReapOptions) (name : Bytes) : Guarantees Ends (reapEntry host options name) := by
  unfold reapEntry
  simp only
  split
  · exact Guarantees.pure _
  · apply (Guarantees.gets _).bind
    intro lease
    split
    · exact (requeueLocked_ends host _ _ _ _).bind fun _ => Guarantees.pure _
    · exact Guarantees.pure _

theorem reapCiLeases_ends (options : CiReapOptions) : Guarantees Ends (reapCiLeases host options) :=
  (Guarantees.gets _).bind fun _ => Guarantees.accumulate fun _ name =>
    (reapEntry_ends host options name).bind fun _ => Guarantees.pure _

end CkGit.Store

namespace CkGit.Store.Locking
open CkGit.Base CkGit.Ci Prog Relation

variable {s t u : Files}

/-- An operation that takes the spool lock. -/
inductive Call where
  | enqueue (request : CiJobRequest)
  | submit (parent : CiJobRequest) (children : List CiJobRequest)
  | refresh
  | claim (options : CiClaimOptions)
  | renew (job_id token : Bytes) (lease_seconds : UInt64)
  | release (job_id token : Bytes)
  | abandon (job_id token runner : Bytes)
  | reap (options : CiReapOptions)
  | remove (project_name : Bytes)

def ignore {α : Type} (p : Op α) : Op Unit := do
  let _ ← p
  return ()

def Call.op (host : Host) (call : Call) : Op Unit :=
  match call with
  | .enqueue request => enqueueCiJob host request
  | .submit parent children => enqueueCiWorkflowJobs host parent children
  | .refresh => reconcileWorkflowGroups host
  | .claim options => ignore (claimCiJob host options)
  | .renew job_id token lease_seconds => ignore (renewCiLease host job_id token lease_seconds)
  | .release job_id token => ignore (releaseCiClaim host job_id token)
  | .abandon job_id token runner => ignore (abandonCiJob host job_id token runner)
  | .reap options => ignore (reapCiLeases host options)
  | .remove project_name => removeProjectCi host project_name

/-- What happens without the lock. -/
inductive Unlocked (s : Files) : Files → Prop where
  | runs {t : Files} (same : ∀ directory name, t.get (.queue directory name) = s.get (.queue directory name)) :
      Unlocked s t
  /-- One unlink of releaseCiJob. -/
  | releaseCiJob (directory : Directory) (name : Bytes) (claim : directory = .working ∨ directory = .leases) :
      Unlocked s (s.remove (.queue directory name))

theorem Unlocked.touches {footprint : Path → Prop} (h : Unlocked s t)
    (runs : ∀ project_name run_id file, footprint (.run project_name run_id file)) : Touches footprint s t := by
  cases h with
  | runs same =>
    intro path outside
    cases path with
    | queue directory name => exact .inr (same directory name)
    | run project_name run_id file => exact absurd (runs _ _ _) outside
  | releaseCiJob directory name => exact touches_remove _ s

/-- The spool is the lock holder's. -/
theorem Unlocked.spool (h : Unlocked s t) (name : Bytes) :
    t.get (.queue .spool name) = s.get (.queue .spool name) := by
  cases h with
  | runs same => exact same _ _
  | releaseCiJob directory other claim =>
    apply Files.get_remove_ne
    intro same
    injection same with directories
    subst directories
    rcases claim with spool | spool <;> cases spool

/-- Whether the operation hands the job to the store. -/
def Call.brings (call : Call) (job_id : Bytes) : Prop :=
  match call with
  | .enqueue request => request.job_id = job_id
  | .submit _ children => ∃ child ∈ children, child.job_id = job_id
  | _ => False

structure Server where
  files : Files
  /-- What remains of the operation that holds the lock. -/
  locked : Option (Op Unit) := none

/-- One step of some process, where only permitted operations begin. -/
inductive Step (permitted : Host → Call → Prop) : Server → Server → Prop where
  | lock {s : Files} (host : Host) (call : Call) (may : permitted host call) :
      Step permitted ⟨s, none⟩ ⟨s, some (call.op host)⟩
  | advance {s t : Files} {p q : Op Unit} (one : Advances p s q t) : Step permitted ⟨s, some p⟩ ⟨t, some q⟩
  /-- The operation is through, or its process died. -/
  | unlock {s : Files} {p : Op Unit} : Step permitted ⟨s, some p⟩ ⟨s, none⟩
  | unlocked {s t : Files} {locked : Option (Op Unit)} (h : Unlocked s t) :
      Step permitted ⟨s, locked⟩ ⟨t, locked⟩

variable {permitted : Host → Call → Prop} {invariant : Files → Prop}

/-- An operation that nobody disturbs. -/
theorem undisturbed {p : Op Unit} (returned : (p.exec s).1 = .ok ()) :
    ReflTransGen (Step permitted) ⟨s, some p⟩ ⟨(p.exec s).2, some (.done ())⟩ := by
  induction p generalizing s with
  | done a => exact .refl
  | throw error => cases returned
  | read next ih => exact .head (.advance .read) (ih s returned)
  | write change next ih => exact .head (.advance .write) (ih returned)

/-- An operation from its lock to its unlock. -/
theorem performed {host : Host} {call : Call} (may : permitted host call)
    (returned : ((call.op host).exec s).1 = .ok ()) :
    ReflTransGen (Step permitted) ⟨s, none⟩ ⟨((call.op host).exec s).2, none⟩ :=
  .head (.lock host call may) (.tail (undisturbed returned) .unlock)

abbrev Meanwhile : Files → Files → Prop := ReflTransGen Unlocked

theorem meanwhile_refl (s : Files) : Meanwhile s s := .refl

theorem Meanwhile.touches {footprint : Path → Prop} (h : Meanwhile s t)
    (runs : ∀ project_name run_id file, footprint (.run project_name run_id file)) : Touches footprint s t := by
  induction h with
  | refl => exact Touches.refl s
  | tail _ last ih => exact ih.trans (last.touches runs)

theorem Meanwhile.ends (h : Meanwhile s t) : Ends s t := h.touches runs_unclaimed

theorem Meanwhile.spool (h : Meanwhile s t) (name : Bytes) :
    t.get (.queue .spool name) = s.get (.queue .spool name) := by
  induction h with
  | refl => rfl
  | tail _ last ih => exact (last.spool name).trans ih

/-- The lock's holder keeps the invariant, whatever remains of its operation. -/
structure Holding (invariant : Files → Prop) (server : Server) : Prop where
  files : invariant server.files
  rest : ∀ p, server.locked = some p →
    p.amid Meanwhile (fun _ => invariant) (fun _ => invariant) (fun _ => invariant) server.files

/-- An operation keeps the invariant at each of its writes, whatever happens between them. -/
def Holds (invariant : Files → Prop) {α : Type} (p : Op α) : Prop :=
  Among Meanwhile (fun _ => invariant) invariant p (fun _ => invariant) invariant

theorem Holding.step {server next : Server} (stable : Stable Unlocked invariant)
    (each : ∀ host call, permitted host call → Holds invariant (call.op host))
    (held : Holding invariant server) (step : Step permitted server next) : Holding invariant next := by
  cases step with
  | lock host call may =>
    refine ⟨held.files, ?_⟩
    intro p locked
    cases locked
    exact (each host call may).runs _ held.files
  | advance one =>
    obtain ⟨made, rest⟩ := amid_advances (held.rest _ rfl) .refl one
    refine ⟨?_, ?_⟩
    · rcases made with same | kept
      · subst same
        exact held.files
      · exact kept
    · intro p locked
      cases locked
      exact rest
  | unlock => exact ⟨held.files, fun p locked => by cases locked⟩
  | unlocked h =>
    refine ⟨stable _ _ h held.files, ?_⟩
    intro p locked
    exact amid_env (fun _ _ _ => ReflTransGen.trans) (held.rest p locked) (.single h)

/-- What every operation and everything else keeps holds in every state reached. -/
theorem holds_throughout {server : Server} (stable : Stable Unlocked invariant)
    (each : ∀ host call, permitted host call → Holds invariant (call.op host)) (start : invariant s)
    (path : ReflTransGen (Step permitted) ⟨s, none⟩ server) : invariant server.files := by
  have first : Holding invariant ⟨s, none⟩ := ⟨start, fun p locked => by cases locked⟩
  exact (path_preserves (fun _ _ held step => held.step stable each step) path first).files

theorem stable_meanwhile (stable : Stable Unlocked invariant) : Stable Meanwhile invariant := by
  intro s t other held
  induction other with
  | refl => exact held
  | tail _ last ih => exact stable _ _ last ih

/-- What remains of an operation that has begun brings the property when it returns. -/
def Bringing (post : Files → Prop) (server : Server) : Prop :=
  ∀ p, server.locked = some p → p.amid Meanwhile (fun _ _ => True) (fun _ => post) (fun _ _ => True) server.files

theorem Bringing.step {post : Files → Prop} {server next : Server} (held : Bringing post server)
    (step : Step (fun _ _ => False) server next) : Bringing post next := by
  intro p same
  cases step with
  | lock host call never => exact never.elim
  | advance one =>
    cases same
    exact (amid_advances (held _ rfl) .refl one).2
  | unlock => cases same
  | unlocked h => exact amid_env (fun _ _ _ => ReflTransGen.trans) (held p same) (.single h)

theorem returned_after {post : Files → Prop} {p : Op Unit}
    (brings : p.amid Meanwhile (fun _ _ => True) (fun _ => post) (fun _ _ => True) s)
    (path : ReflTransGen (Step fun _ _ => False) ⟨s, some p⟩ ⟨t, some (.done ())⟩) : post t := by
  have first : Bringing post ⟨s, some p⟩ := by
    intro q same
    cases same
    exact brings
  have last := path_preserves (fun _ _ held step => Bringing.step held step) path first
  exact last _ rfl t .refl

section
variable {footprint : Path → Prop} {α β : Type}

/-- An invariant outlasts what touches none of its files. -/
theorem holds_of_touches {p : Op α} (others : Stable Meanwhile invariant) (kept : Stable (Touches footprint) invariant)
    (h : Guarantees (Touches footprint) p) : Holds invariant p :=
  h.among others kept fun s t held touched => kept s t touched held

theorem Holds.ignore {p : Op α} (others : Stable Meanwhile invariant) (h : Holds invariant p) :
    Holds invariant (ignore p) := Among.next meanwhile_refl h fun _ => Among.done others fun _ held => held

theorem Holds.next {p : Op α} {rest : α → Op β} (first : Holds invariant p) (each : ∀ a, Holds invariant (rest a)) :
    Holds invariant (p >>= rest) := Among.next meanwhile_refl first each

/-- What the invariant says of a value that is read stays known. -/
theorem Holds.gets (fact : α → Prop) {f : Files → α} {rest : α → Op β} (others : Stable Meanwhile invariant)
    (known : ∀ s, invariant s → fact (f s)) (each : ∀ a, fact a → Holds invariant (rest a)) :
    Holds invariant (Prog.gets f >>= rest) := by
  have read : Among Meanwhile (fun _ => invariant) invariant (Prog.gets f : Op α) (fun a s => fact a ∧ invariant s)
      invariant :=
    Among.gets others (fun _ s t other held => ⟨held.1, others s t other held.2⟩) fun s held => ⟨known s held, held⟩
  exact Among.bind meanwhile_refl read fun a => Among.given (each a)

theorem Holds.reads (fact : α → Prop) {f : Files → Except String α} {rest : α → Op β}
    (others : Stable Meanwhile invariant) (known : ∀ s a, invariant s → f s = .ok a → fact a)
    (each : ∀ a, fact a → Holds invariant (rest a)) : Holds invariant (Prog.reads f >>= rest) := by
  have read : Among Meanwhile (fun _ => invariant) invariant (Prog.reads f : Op α) (fun a s => fact a ∧ invariant s)
      invariant :=
    Among.reads others (fun _ s t other held => ⟨held.1, others s t other held.2⟩)
      (fun s a held read => ⟨known s a held read, held⟩) fun _ held => held
  exact Among.bind meanwhile_refl read fun a => Among.given (each a)

theorem known_ofExcept {before failed : Files → Prop} {allowed : Files → Files → Prop} {x : Except String α}
    (others : Stable Meanwhile before) (fails : ∀ s, before s → failed s) :
    Among Meanwhile allowed before (Prog.ofExcept x : Op α) (fun a s => x = .ok a ∧ before s) failed :=
  Among.ofExcept others (fun _ read _ held => ⟨read, held⟩) fails

theorem Holds.ofExcept {x : Except String α} {rest : α → Op β} (others : Stable Meanwhile invariant)
    (each : ∀ a, x = .ok a → Holds invariant (rest a)) : Holds invariant (Prog.ofExcept x >>= rest) :=
  Among.bind meanwhile_refl (known_ofExcept others fun _ held => held) fun a => Among.given (each a)

end

end CkGit.Store.Locking
