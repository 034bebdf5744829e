import CkGit.Workspace.Quiet

/-!
The programs of the runner, with helpers at work between any two of their steps:
they keep the invariant, and they remove something only in a workspace that is
quiet.
-/
namespace CkGit.Workspace
open Base

variable {first : FileSystem} {now name boot : Bytes} {path : Path}

/-- What the helpers do while the runner waits for its turn. -/
def Meanwhile (s t : Host) : Prop := Relation.ReflTransGen Helps s t

/-- What the runner may do: from an invariant state it leads to one, and what it removes is in a workspace
that was made here and is quiet. -/
def Allowed (first : FileSystem) (now : Bytes) (s t : Host) : Prop :=
  Inv first now s → Inv first now t ∧ ∀ path, s.files.get path ≠ none → t.files.get path = none →
    ∃ name ∈ s.made, [name] <+: path ∧ s.Quiet name

/-- The workspace is made and quiet. -/
structure On (first : FileSystem) (now name : Bytes) (host : Host) : Prop where
  inv : Inv first now host
  quiet : host.Quiet name
  made : name ∈ host.made

theorem stable_of_step {property : Host → Prop} (kept : ∀ s t, Helps s t → property s → property t) :
    Prog.Stable Meanwhile property := by
  intro s t meanwhile held
  induction meanwhile with
  | refl => exact held
  | tail _ step ih => exact kept _ _ step ih

theorem Helps.same {s t : Host} (step : Helps s t) : t.made = s.made ∧ t.boot = s.boot ∧ t.calls = s.calls := by
  cases step <;> exact ⟨rfl, rfl, rfl⟩

/-- Nothing moves in a quiet workspace. -/
theorem Helps.frozen {s t : Host} (step : Helps s t) (quiet : s.Quiet name) :
    t.Quiet name ∧ ∀ path, [name] <+: path → t.files.get path = s.files.get path := by
  have differs : ∀ {other : Bytes}, s.helper other ≠ none → name ≠ other := by
    rintro other busy rfl
    exact busy quiet.2
  cases step with
  | lock waiting there free =>
    have apart := differs (Option.ne_none_iff_exists'.mpr ⟨_, waiting⟩)
    exact ⟨⟨quiet.1, (Function.update_of_ne apart ..).trans quiet.2⟩, fun _ _ => rfl⟩
  | start locked unproved =>
    have apart := differs (Option.ne_none_iff_exists'.mpr ⟨_, locked⟩)
    refine ⟨⟨?_, (Function.update_of_ne apart ..).trans quiet.2⟩, fun _ _ => rfl⟩
    exact fun running => quiet.1 ((Function.update_of_ne apart ..).symm.trans running)
  | @work other files running below =>
    refine ⟨quiet, fun path inside => below path (.inl fun deep => ?_)⟩
    obtain ⟨rest, rfl⟩ := inside
    exact quiet.1 ((List.cons_prefix_cons.mp deep).1 ▸ running)
  | stop started =>
    have apart := differs (Option.ne_none_iff_exists'.mpr ⟨_, started⟩)
    refine ⟨⟨?_, (Function.update_of_ne apart ..).trans quiet.2⟩, fun _ _ => rfl⟩
    exact fun running => quiet.1 ((Function.update_of_ne apart ..).symm.trans running)
  | prove stopped unproved =>
    have apart := differs (Option.ne_none_iff_exists'.mpr ⟨_, stopped⟩)
    refine ⟨⟨quiet.1, (Function.update_of_ne apart ..).trans quiet.2⟩, fun path inside => get_place_other ?_⟩
    rintro rfl
    exact apart (List.cons_prefix_cons.mp inside).1
  | record proving =>
    have apart := differs (Option.ne_none_iff_exists'.mpr ⟨_, proving⟩)
    refine ⟨quiet, fun path inside => get_place_other ?_⟩
    rintro rfl
    exact apart (List.cons_prefix_cons.mp inside).1
  | @exit other =>
    refine ⟨⟨quiet.1, ?_⟩, fun _ _ => rfl⟩
    show Function.update s.helper other none name = none
    rw [Function.update_apply, quiet.2, ite_self]

/-- A program of the runner among the helpers. -/
abbrev Runs (first : FileSystem) (now : Bytes) {α : Type} (before : Host → Prop) (p : Call α) (after : α → Host → Prop)
    (failed : Host → Prop) : Prop := Prog.Among Meanwhile (Allowed first now) before p after failed

/-- It outlasts the helpers and says nothing of the number of calls. -/
structure Lasts (first : FileSystem) (now : Bytes) (property : Host → Prop) : Prop where
  stable : Prog.Stable Meanwhile property
  calls : ∀ host count, property host → property { host with calls := count }
  inv : ∀ host, property host → Inv first now host

theorem reflexive (s : Host) : Meanwhile s s := .refl

/-- Facts about the files of one workspace and the boot session. -/
abbrev Facts := (Path → Option Node) → Bytes → Prop

/-- They say nothing of what is elsewhere. -/
def Local (name : Bytes) (facts : Facts) : Prop :=
  ∀ f g boot, (∀ path, [name] <+: path → f path = g path) → facts f boot → facts g boot

/-- They hold of a quiet workspace. -/
def Noted (first : FileSystem) (now name : Bytes) (facts : Facts) (host : Host) : Prop :=
  On first now name host ∧ facts host.files.get host.boot

theorem lasts_inv : Lasts first now (Inv first now) where
  stable := stable_of_step fun _ _ step inv => inv.helps step
  calls _ _ inv := { inv with }
  inv _ inv := inv

theorem lasts_on : Lasts first now (On first now name) where
  stable := stable_of_step fun _ _ step held =>
    ⟨held.inv.helps step, (step.frozen held.quiet).1, step.same.1 ▸ held.made⟩
  calls _ _ on := ⟨{ on.inv with }, on.quiet, on.made⟩
  inv _ on := on.inv

theorem lasts_noted {facts : Facts} (near : Local name facts) : Lasts first now (Noted first now name facts) where
  stable := stable_of_step fun s t step held => by
    obtain ⟨quiet, same⟩ := step.frozen held.1.quiet
    obtain ⟨made, boot, _⟩ := step.same
    refine ⟨⟨held.1.inv.helps step, quiet, made ▸ held.1.made⟩, boot ▸ ?_⟩
    exact near _ _ _ (fun path inside => (same path inside).symm) held.2
  calls host count held := ⟨lasts_on.calls host count held.1, held.2⟩
  inv _ held := held.1.inv

section
variable {world : World} {before : Host → Prop} {error : String}

theorem allowed_same {s t : Host} (same : t.files = s.files) (inv : Inv first now s → Inv first now t) : Allowed first now s t :=
  fun held => ⟨inv held, fun _ there gone => absurd (same ▸ gone) there⟩

theorem refused_runs (lasts : Lasts first now before) : Runs first now before world.refused (fun _ => before) before := by
  apply Prog.Among.next reflexive
  · exact .gets lasts.stable (fun _ => lasts.stable) fun _ held => held
  · intro count
    apply Prog.Among.next reflexive
    · refine .modify lasts.stable lasts.stable fun s held => ⟨allowed_same rfl fun inv => ?_, lasts.calls s _ held⟩
      exact lasts_inv.calls s _ inv
    · exact fun _ => .done lasts.stable fun _ held => held

theorem checked_runs (lasts : Lasts first now before) :
    Runs first now before (world.checked error) (fun _ => before) before := by
  apply Prog.Among.next reflexive (refused_runs lasts)
  intro refused
  cases refused with
  | true => exact .throw lasts.stable fun _ held => held
  | false => exact .done lasts.stable fun _ held => held

theorem requireDirectory_runs (lasts : Lasts first now before) :
    Runs first now before (world.requireDirectory path error) (fun _ => before) before := by
  apply Prog.Among.next reflexive (checked_runs lasts)
  exact fun _ => .reads lasts.stable (fun _ => lasts.stable) (fun _ _ held _ => held) fun _ held => held

/-- Less is left of a quiet workspace. -/
theorem On.less {host : Host} {files : FileSystem} (on : On first now name host)
    (less : ∀ path, files.get path = host.files.get path ∨ ([name] <+: path ∧ files.get path = none)) :
    Allowed first now host { host with files := files } ∧ On first now name { host with files := files } := by
  have inv : Inv first now { host with files := files } := by
    refine on.inv.under on.quiet on.made (fun path outside => ?_) ?_ fun boot read => .inl ?_
    · exact (less path).resolve_right fun gone => outside gone.1
    · exact (less [name]).imp_right And.right
    · rcases less (markerPath name) with same | ⟨_, gone⟩
      · rwa [markerOf_congr same] at read
      · rw [markerOf, gone] at read
        cases read
  refine ⟨fun _ => ⟨inv, fun place there gone => ⟨name, on.made, ?_, on.quiet⟩⟩, inv, on.quiet, on.made⟩
  rcases less place with same | ⟨inside, _⟩
  · exact absurd (same ▸ gone) there
  · exact inside

theorem unlink_runs (inside : [name] <+: path) :
    Runs first now (On first now name) (world.unlink path error) (fun _ => On first now name) (On first now name) := by
  have below : path ≠ [] := by
    rintro rfl
    exact absurd (List.prefix_nil.mp inside) nofun
  apply Prog.Among.next reflexive (checked_runs lasts_on)
  intro _
  apply Prog.Among.next reflexive
  · exact .reads lasts_on.stable (fun _ => lasts_on.stable) (fun _ _ held _ => held) fun _ held => held
  · intro _
    refine .modify lasts_on.stable lasts_on.stable fun s on => on.less fun place => ?_
    exact (get_unlinked below place).imp_right (And.imp_left inside.trans)

theorem rmdir_runs (inside : [name] <+: path) :
    Runs first now (On first now name) (world.rmdir path error) (fun _ => On first now name) (On first now name) := by
  have below : path ≠ [] := by
    rintro rfl
    exact absurd (List.prefix_nil.mp inside) nofun
  apply Prog.Among.next reflexive (checked_runs lasts_on)
  intro _
  apply Prog.Among.next reflexive
  · refine .modify lasts_on.stable lasts_on.stable fun s on => on.less fun place => ?_
    exact (get_withoutDirectory below place).imp_right (And.imp_left inside.trans)
  · exact fun _ => .reads lasts_on.stable (fun _ => lasts_on.stable) (fun _ _ held _ => held) fun _ held => held

theorem readMarker_runs (lasts : Lasts first now before) :
    Runs first now before (readMarker world name) (fun _ => before) before := by
  apply Prog.Among.next reflexive (checked_runs lasts)
  exact fun _ => .reads lasts.stable (fun _ => lasts.stable) (fun _ _ held _ => held) fun _ held => held

theorem validateRunnerLock_runs (lasts : Lasts first now before) :
    Runs first now before (validateRunnerLock world) (fun _ => before) before := by
  apply Prog.Among.next reflexive (checked_runs lasts)
  exact fun _ => .reads lasts.stable (fun _ => lasts.stable) (fun _ _ held _ => held) fun _ held => held

/-- A directory is cleared level by level. -/
theorem clearDirectory_runs {progress : Bool} {levels : Nat} {dir : Path} {preserve : List Bytes} {entries : Nat}
    (inside : [name] <+: dir) :
    Runs first now (On first now name) (clearDirectory world progress levels dir preserve entries)
      (fun _ => On first now name) (On first now name) := by
  induction levels generalizing dir preserve entries with
  | zero => exact .throw lasts_on.stable fun _ held => held
  | succ levels ih =>
    have deep : ∀ entry : Bytes, [name] <+: dir ++ [entry] := fun entry => inside.trans (List.prefix_append ..)
    apply Prog.Among.next reflexive (checked_runs lasts_on)
    intro _
    apply Prog.Among.next reflexive
    · exact .gets lasts_on.stable (fun _ => lasts_on.stable) fun _ held => held
    intro names
    refine Prog.Among.accumulate reflexive (fun _ => lasts_on.stable) fun entries entry _ => ?_
    unfold clearEntry
    split
    · exact .done lasts_on.stable fun _ held => held
    apply Prog.Among.next reflexive
    · exact .ofExcept lasts_on.stable (fun _ _ _ held => held) fun _ held => held
    intro _
    apply Prog.Among.next reflexive
    · unfold Prog.whenever
      split
      · exact checked_runs lasts_on
      · exact .done lasts_on.stable fun _ held => held
    intro _
    apply Prog.Among.next reflexive (checked_runs lasts_on)
    intro _
    apply Prog.Among.next reflexive
    · exact .gets lasts_on.stable (fun _ => lasts_on.stable) fun _ held => held
    intro node
    split
    · exact .throw lasts_on.stable fun _ held => held
    · apply Prog.Among.next reflexive (checked_runs lasts_on)
      intro _
      apply Prog.Among.next reflexive (ih (deep entry))
      intro entries
      apply Prog.Among.next reflexive (rmdir_runs (deep entry))
      exact fun _ => .done lasts_on.stable fun _ held => held
    · apply Prog.Among.next reflexive (unlink_runs (deep entry))
      exact fun _ => .done lasts_on.stable fun _ held => held

end
end CkGit.Workspace
