import CkGit.Workspace.Programs

/-!
Every run: what a state of the machine satisfies when the runner is killed, fails
or restarts anywhere, and its helpers go on without it.
-/
namespace CkGit.Workspace
open Base

variable {world : World} {first : FileSystem} {now name boot : Bytes} {host : Host} {s t : System}

/-- What remains to be done is known to keep the invariant. -/
def SessionSound (first : FileSystem) (now : Bytes) (host : Host) (session : Option Session) : Prop :=
  match session with
  | none => True
  | some (.running p) => p.amid Meanwhile (Allowed first now) (Returned first now) (fun _ _ => True) host
  | some (.alive name _ spawned) => name ∈ host.made ∧ (spawned = false → Noted first now name (Ready now name) host)

structure Sound (first : FileSystem) (now : Bytes) (s : System) : Prop where
  inv : Inv first now s.host
  session : SessionSound first now s.host s.session

theorem Inv.released (inv : Inv first now host) : Inv first now host.released :=
  inv.locks fun other helper => by rw [helper, if_neg nofun]

/-- A restart ends every guest and helper. -/
theorem Inv.restarted (inv : Inv first now host) (valid : ValidBoot boot) : Inv first boot (host.restarted boot) where
  here := rfl
  held _ _ there := nomatch there
  ended _ late := late.elim nofun nofun
  proved _ _ := ⟨nofun, .inl rfl⟩
  current _ busy := busy.elim (fun helper => absurd rfl helper) nofun
  marked name boot read := (inv.marked name boot read).imp_right (List.mem_cons_of_mem _)
  booted := List.mem_cons_self
  valid := valid
  named := inv.named
  single := inv.single
  known := inv.known
  kept := inv.kept
  apart := inv.apart

theorem Noted.marker_ok (held : Noted first now name (Ready now name) host) :
    markerOf host.files name = .ok host.boot := by
  rw [markerOf, held.2.2, held.1.inv.here]
  exact parseMarker_workspaceMarker (held.1.inv.here ▸ held.1.inv.valid)

/-- The helper is started once, for a workspace that is ready. -/
theorem Noted.spawned (held : Noted first now name (Ready now name) host) :
    Inv first now { host with helper := Function.update host.helper name (some .spawned) } := by
  obtain ⟨off, gone⟩ := held.1.quiet
  have helper : ∀ other phase, Function.update host.helper name (some .spawned) other = some phase →
      (other = name ∧ phase = .spawned) ∨ host.helper other = some phase := by
    intro other phase there
    by_cases same : other = name
    · subst same
      rw [Function.update_self] at there
      cases there
      exact .inl ⟨rfl, rfl⟩
    · exact .inr (by rwa [Function.update_of_ne same] at there)
  refine { held.1.inv with held := ?_, ended := ?_, proved := ?_, current := ?_ }
  · intro other phase there late
    rcases helper other phase there with ⟨_, rfl⟩ | before
    · exact absurd rfl late
    · exact held.1.inv.held other phase before late
  · intro other late
    refine held.1.inv.ended other (late.imp (fun there => ?_) fun there => ?_)
    · exact (helper other _ there).resolve_left nofun
    · exact (helper other _ there).resolve_left nofun
  · intro other there
    by_cases same : other = name
    · subst same
      exact absurd held.2.1.2.2 there
    · dsimp only
      rw [Function.update_of_ne same]
      exact held.1.inv.proved other there
  · intro other busy
    by_cases same : other = name
    · subst same
      exact held.marker_ok
    · dsimp only at busy
      rw [Function.update_of_ne same] at busy
      exact held.1.inv.current other busy

theorem meanwhile_trans (s t u : Host) (first : Meanwhile s t) (second : Meanwhile t u) : Meanwhile s u :=
  first.trans second

/-- One step. A restart changes the boot session. -/
theorem Sound.step (sound : Sound first now s) (step : Step world s t) : ∃ now', Sound first now' t := by
  obtain ⟨inv, session⟩ := sound
  cases step with
  | create => exact ⟨now, inv, (createWorkspace_runs (inv.here ▸ inv.valid)).runs _ inv⟩
  | advance step =>
    obtain ⟨allowed, rest⟩ := Prog.amid_advances session (reflexive _) step
    refine ⟨now, ?_, rest⟩
    rcases allowed with same | allowed
    · exact same ▸ inv
    · exact (allowed inv).1
  | created =>
    obtain ⟨returned, result⟩ := session _ (reflexive _)
    obtain ⟨rfl, ready⟩ := result _ _ rfl
    exact ⟨_, inv, ready.1.made, fun _ => ready⟩
  | removed => exact ⟨now, inv.released, trivial⟩
  | failed => exact ⟨now, inv.released, trivial⟩
  | @stage host name boot spawned files below =>
    have after : Inv first now { host with files := files } :=
      inv.below session.1 ⟨[exchangeName], rfl⟩
        (fun inside => absurd (List.cons_prefix_cons.mp (List.cons_prefix_cons.mp inside).2).1 (by decide)) nofun
        (.inl fun inside => absurd (List.cons_prefix_cons.mp (List.cons_prefix_cons.mp inside).2).1 (by decide)) below
    refine ⟨now, after, session.1, fun unspawned => ?_⟩
    obtain ⟨on, ⟨here, top, proof⟩, marker⟩ := session.2 unspawned
    refine ⟨⟨after, on.quiet, on.made⟩, ⟨here, ?_, ?_⟩, ?_⟩
    · exact (below _ (.inl fun inside => absurd inside.length_le (by simp))).trans top
    · refine (below _ (.inl fun inside => ?_)).trans proof
      exact absurd (List.cons_prefix_cons.mp (List.cons_prefix_cons.mp inside).2).1 (by decide)
    · refine (below _ (.inl fun inside => ?_)).trans marker
      exact absurd (List.cons_prefix_cons.mp (List.cons_prefix_cons.mp inside).2).1 (by decide)
  | spawn => exact ⟨now, (session.2 rfl).spawned, session.1, nofun⟩
  | remove stopped gone =>
    exact ⟨now, inv, removeAfterConfirmedStop_runs.runs _ ⟨inv, ⟨stopped, gone⟩, session.1⟩⟩
  | killed => exact ⟨now, inv.released, trivial⟩
  | @help host next session' step =>
    refine ⟨now, inv.helps step, ?_⟩
    match session' with
    | none => trivial
    | some (.running p) => exact Prog.amid_env meanwhile_trans session (.single step)
    | some (.alive name boot spawned) =>
      exact ⟨step.same.1 ▸ session.1, fun unspawned => lasts_ready.stable _ _ (.single step) (session.2 unspawned)⟩
  | restart valid fresh => exact ⟨_, inv.restarted valid, trivial⟩

theorem Starts.sound (starts : Starts s) : Sound s.host.files s.host.boot s where
  inv := {
    here := rfl
    held := fun name phase there => by
      rw [starts.alone] at there
      cases there
    ended := fun name late => by
      rw [starts.alone] at late
      exact late.elim nofun nofun
    proved := fun name _ => ⟨by rw [starts.off]; exact nofun, .inl (starts.alone name)⟩
    current := fun name busy => by
      rw [starts.alone, starts.off] at busy
      exact busy.elim (fun helper => absurd rfl helper) nofun
    marked := fun name boot read => absurd read (starts.unmarked name boot)
    booted := by simp [starts.booted]
    valid := starts.valid
    named := by simp [starts.unused]
    single := by simp [starts.unused]
    known := fun _ _ => .inr
    kept := fun _ _ => id
    apart := by simp [starts.unused] }
  session := by
    rw [starts.idle]
    trivial

/-- Every run. -/
theorem Starts.reaches (starts : Starts s) (run : Reaches world s t) : ∃ now, Sound s.host.files now t := by
  induction run with
  | refl => exact ⟨_, starts.sound⟩
  | tail _ step ih =>
    obtain ⟨now, sound⟩ := ih
    exact sound.step step

end CkGit.Workspace
