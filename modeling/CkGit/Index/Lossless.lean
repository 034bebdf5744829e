import CkGit.Index.Steps

/-!
Every run that meets the condition loses no update of the project.
-/
namespace CkGit.Index
open CkGit.Base CkGit.Ci

/-- What a thread holds of the project. -/
structure ThreadInv (name : Bytes) (watch : Watch) (role : Role) : Prop where
  recent : ∀ parts ∈ role.seen, ∀ part read, parts part = some read → read.at_time < watch.state.now
  /-- Without a refreshMetadata since the start of the rebuild, what it read is not older than one. -/
  fresh : ∀ revision time, role.started = some (revision, time) → watch.published < time →
    ∀ parts ∈ role.seen, ∀ part, part ≠ .dependency_requests → ∀ read, parts part = some read →
      watch.floors part ≤ read.at_time
  /-- A refreshMetadata since the start of the rebuild shows in the revision. -/
  started : ∀ revision time, role.started = some (revision, time) → time < watch.state.now
    ∧ revision ≤ watch.state.revision name ∧ (time ≤ watch.published →
      revision < watch.state.revision name ∧ ∃ summary, watch.state.record name = some summary)
  inventory : ∀ names, role.inventory = some names → name ∈ names

structure WatchInv (name : Bytes) (watch : Watch) : Prop where
  fresh : ∀ summary, watch.state.record name = some summary → ∀ part, part ≠ .dependency_requests →
    ∀ read, summary.parts part = some read → watch.floors part ≤ read.at_time
  shown : ∀ part, part ≠ .dependency_requests → watch.shown part = true →
    ∃ summary, watch.state.record name = some summary ∧ (summary.parts part).isSome
  recent : ∀ summary, watch.state.record name = some summary →
    ∀ part read, summary.parts part = some read → read.at_time < watch.state.now
  queued : Queued watch.state
  present : name ∈ watch.state.repositories
  floors : ∀ part, watch.floors part ≤ watch.published
  begun : watch.published < watch.state.now

structure Inv (name : Bytes) (host : Host) : Prop where
  watch : WatchInv name host.store
  threads : ∀ process ∈ host.processes, ThreadInv name host.store process.note
  follows : ∀ process ∈ host.processes,
    (roles name).Follows process.rest process.note fun _ after => after.taken = false
  served : host.store.owed = true → name ∈ host.store.state.urgent_order
    ∨ ∃ process ∈ host.processes, process.note.taken = true

section
variable {name : Bytes} {watch : Watch} {role : Role} {host : Host} {index : Nat} {fails : Bool}

/-- Time passes and the project is left alone. -/
structure Later (name : Bytes) (before after : Watch) : Prop where
  leaves : Leaves name before.state after.state
  floors : after.floors = before.floors
  shown : after.shown = before.shown
  published : after.published = before.published
  now : before.state.now ≤ after.state.now

theorem WatchInv.later {after : Watch} (h : WatchInv name watch) (later : Later name watch after)
    (queued : Queued after.state) : WatchInv name after := by
  obtain ⟨leaves, floors, shown, published, now⟩ := later
  have known : ∀ summary, after.state.record name = some summary →
      watch.state.record name = some summary ∨ summary.parts = fun _ => none := by
    intro summary there
    rcases leaves.record with same | ⟨-, placed⟩
    · exact .inl (same.symm.trans there)
    · exact .inr (by rw [← Option.some.inj (placed.symm.trans there)]; rfl)
  refine ⟨fun summary there part asked read found => ?_, fun part asked held => ?_,
    fun summary there part read found => ?_, queued, leaves.repositories ▸ h.present, ?_, ?_⟩
  · rcases known summary there with old | empty
    · rw [floors]
      exact h.fresh summary old part asked read found
    · rw [empty] at found
      cases found
  · obtain ⟨summary, there, value⟩ := h.shown part asked (shown ▸ held)
    rcases leaves.record with same | ⟨absent, -⟩
    · exact ⟨summary, same.trans there, value⟩
    · rw [there] at absent
      cases absent
  · rcases known summary there with old | empty
    · exact Nat.lt_of_lt_of_le (h.recent summary old part read found) now
    · rw [empty] at found
      cases found
  · rw [floors, published]
    exact h.floors
  · rw [published]
    exact Nat.lt_of_lt_of_le h.begun now

theorem ThreadInv.later {after : Watch} (h : ThreadInv name watch role) (later : Later name watch after) :
    ThreadInv name after role := by
  obtain ⟨leaves, floors, -, published, now⟩ := later
  refine ⟨fun parts member part read found => Nat.lt_of_lt_of_le (h.recent parts member part read found) now,
    ?_, fun revision time started => ?_, h.inventory⟩
  · rw [floors, published]
    exact h.fresh
  · obtain ⟨past, below, since⟩ := h.started revision time started
    rw [leaves.revision, published]
    refine ⟨Nat.lt_of_lt_of_le past now, below, fun overlapped => ⟨(since overlapped).1, ?_⟩⟩
    obtain ⟨summary, there⟩ := (since overlapped).2
    rcases leaves.record with same | ⟨absent, -⟩
    · exact ⟨summary, same.trans there⟩
    · rw [there] at absent
      cases absent

/-- A role that differs in what it has in hand only. -/
theorem ThreadInv.hand {other : Role} (h : ThreadInv name watch role) (started : other.started = role.started)
    (seen : other.seen = role.seen) (inventory : other.inventory = role.inventory) :
    ThreadInv name watch other :=
  ⟨seen ▸ h.recent, by rw [started, seen]; exact h.fresh, by rw [started]; exact h.started,
    by rw [inventory]; exact h.inventory⟩

/-- What a thread sees besides, read before now and not older than the floors. -/
theorem ThreadInv.sees {parts : Parts} (h : ThreadInv name watch role)
    (recent : ∀ part read, parts part = some read → read.at_time < watch.state.now)
    (fresh : ∀ part, part ≠ .dependency_requests → ∀ read, parts part = some read →
      watch.floors part ≤ read.at_time) :
    ThreadInv name watch { role with seen := parts :: role.seen } := by
  refine ⟨?_, ?_, h.started, h.inventory⟩
  · rintro held (_ | ⟨_, old⟩)
    exacts [recent, h.recent held old]
  · rintro revision time started past held (_ | ⟨_, old⟩)
    exacts [fresh, h.fresh revision time started past held old]

theorem mark_state {β : Type} (now : Nat) (op : IndexOp β) : (watch.mark name now op).state = watch.state := by
  unfold Watch.mark
  split
  · split <;> rfl
  · split <;> rfl
  · split <;> rfl
  · split <;> rfl
  · rfl

theorem mark_spared {β : Type} {op : IndexOp β} (now : Nat) (spared : ¬ Touches name op) :
    (watch.mark name now op).floors = watch.floors ∧ (watch.mark name now op).shown = watch.shown
      ∧ (watch.mark name now op).published = watch.published := by
  unfold Watch.mark
  split
  · split <;> exact ⟨rfl, rfl, rfl⟩
  · split <;> exact ⟨rfl, rfl, rfl⟩
  · rw [if_neg fun both => spared both.1]
    exact ⟨rfl, rfl, rfl⟩
  · rw [if_neg (show ¬ _ = name from spared)]
    exact ⟨rfl, rfl, rfl⟩
  · exact ⟨rfl, rfl, rfl⟩

theorem observe_state {β : Type} (op : IndexOp β) :
    (observe name fails op watch).2.state = { (act fails op watch.state).2 with now := watch.state.now + 1 } :=
  mark_state _ op

theorem observe_later {β : Type} {op : IndexOp β} (spared : ¬ Touches name op) :
    Later name watch (observe name fails op watch).2 := by
  have leaves := @act_leaves name watch.state β op fails spared
  have marked := @mark_spared name { watch with state := (perform fails op watch.state).2 } β op
    watch.state.now spared
  refine ⟨?_, marked.1, marked.2.1, marked.2.2, ?_⟩
  · rw [observe_state]
    exact ⟨leaves.record, leaves.revision, leaves.repositories⟩
  · rw [observe_state]
    exact Nat.le_succ _

theorem observe_queued {β : Type} (op : IndexOp β) (h : Queued watch.state) :
    Queued (observe name fails op watch).2.state
      ∧ FirstInFirstOut op watch.state.urgent_order (observe name fails op watch).2.state.urgent_order := by
  have kept := @act_queued watch.state β op fails h
  rw [observe_state]
  exact ⟨⟨kept.1.once, kept.1.same⟩, kept.2⟩

/-- What a thread holds after an operation that leaves the project alone. -/
theorem ThreadInv.next {β : Type} {op : IndexOp β} (h : ThreadInv name watch role) (inv : WatchInv name watch)
    (spared : ¬ Touches name op) :
    ThreadInv name (observe name fails op watch).2
      ((roles name).after role op (observe name fails op watch).1) := by
  have still := h.later (@observe_later name watch fails β op spared)
  rw [show (observe name fails op watch).1 = (act fails op watch.state).1 from rfl]
  cases op with
  | start other =>
    simp only [roles, act]
    split
    · rename_i mine
      refine ⟨by intros; contradiction, by intros; contradiction, fun revision time same => ?_, h.inventory⟩
      obtain ⟨rfl, rfl⟩ := Prod.mk.inj (Option.some.inj same)
      have later := @observe_later name watch fails _ (.start other) spared
      rw [later.leaves.revision, later.published, observe_state, mine]
      exact ⟨Nat.lt_succ_self _, Nat.le_refl _, fun overlapped => absurd inv.begun (Nat.not_lt.mpr overlapped)⟩
    · exact still
  | read other part =>
    simp only [roles]
    split
    · have now : ∀ asked read, (if asked = part then (act fails (.read other part) watch.state).1 else none)
          = some read → read.at_time = watch.state.now := by
        intro asked read found
        split at found
        · cases fails <;> cases found
          rfl
        · cases found
      refine still.sees (fun asked read found => ?_) fun asked _ read found => ?_
      · rw [now asked read found]
        exact Nat.lt_succ_self _
      · rw [now asked read found]
        exact Nat.le_of_lt (Nat.lt_of_le_of_lt (inv.floors asked) inv.begun)
    · exact still
  | find other =>
    simp only [roles]
    split
    · rename_i mine
      subst mine
      cases there : watch.state.record other with
      | none =>
        simp only [act, there]
        exact still.sees (by intros; contradiction) (by intros; contradiction)
      | some summary =>
        simp only [act, there]
        exact still.sees (fun asked read found => Nat.lt_succ_of_lt (inv.recent summary there asked read found))
          (inv.fresh summary there)
    · exact still
  | inventory =>
    refine ⟨still.recent, still.fresh, still.started, fun names same => ?_⟩
    simp only [act] at same
    split at same
    · cases same
    · exact Option.some.inj same ▸ inv.present
  | publish other summary revision =>
    simp only [roles]
    rw [if_neg (show ¬ other = name from spared)]
    exact still
  | present other =>
    simp only [roles]
    split
    · exact still.hand rfl rfl rfl
    · exact still
  | takeUrgent => exact still.hand rfl rfl rfl
  | await urgent_burst =>
    simp only [roles]
    split
    · exact still.hand rfl rfl rfl
    · exact still
  | refresh | refreshMetadata | erase | lockWork | unlockWork | reconcile | sweepOrphans | stopping | unpend
  | fingerprint | inspect => exact still

theorem State.refreshMetadata_absent {state : State} {present : Bool} {updated : Except String Parts}
    (absent : (state.known name present).record name = none) :
    state.refreshMetadata name present updated = state.known name present := by
  simp only [State.refreshMetadata, absent]

/-- A refreshMetadata that finds a record shows its reads or keeps what is there. -/
theorem State.refreshMetadata_found {state : State} {present : Bool} {updated : Except String Parts}
    {summary : ProjectSummary} (found : (state.known name present).record name = some summary) :
    (∃ after, (state.refreshMetadata name present updated).record name = some after
        ∧ after.parts = match updated with
          | .ok parts => parts
          | .error _ => summary.parts)
      ∧ (state.refreshMetadata name present updated).revision name = state.revision name + 1
      ∧ (state.refreshMetadata name present updated).repositories = state.repositories := by
  have counted : (state.known name present).revision name = state.revision name := by simp [State.revision]
  simp only [State.refreshMetadata, found]
  refine ⟨⟨_, (Assoc.get_put name name _ _).trans (if_pos rfl), ?_⟩, ?_, by simp⟩
  · cases updated <;> rfl
  · rw [← counted]
    exact congrArg (Option.getD · 0) ((Assoc.get_put name name _ _).trans (if_pos rfl))

theorem later_floor {floors : Part → Nat} {parts : Parts} {part : Part} {read : Read}
    (found : parts part = some read) (reached : floors part ≤ read.at_time) :
    later floors parts part ≤ read.at_time := by
  simp only [later, found, Option.elim_some]
  exact Nat.max_le.mpr ⟨reached, Nat.le_refl _⟩

theorem floorsAfter_le {floors : Part → Nat} {updated : Except String Parts} {bound : Nat}
    (before : ∀ part, floors part ≤ bound)
    (reads : ∀ parts, updated = .ok parts → ∀ part read, parts part = some read → read.at_time ≤ bound)
    (part : Part) : floorsAfter floors updated part ≤ bound := by
  cases updated with
  | error => exact before part
  | ok parts =>
    show later floors parts part ≤ bound
    unfold later
    cases found : parts part with
    | none => exact before part
    | some read => exact Nat.max_le.mpr ⟨before part, reads parts rfl part read found⟩

/-- A refreshMetadata of the project is published. -/
theorem refreshMetadata_step {present : Bool} {updated : Except String Parts} (h : WatchInv name watch)
    (recent : ∀ parts, updated = .ok parts → ∀ part read, parts part = some read →
      read.at_time < watch.state.now)
    (meets : ∀ parts, updated = .ok parts → ∀ part, part ≠ .dependency_requests →
      ∀ read, parts part = some read → watch.floors part ≤ read.at_time)
    (whole : ∀ parts, updated = .ok parts → ∀ part, part ≠ .dependency_requests → (parts part).isSome) :
    WatchInv name (observe name fails (.refreshMetadata name present updated) watch).2
      ∧ ∀ role, ThreadInv name watch role →
        ThreadInv name (observe name fails (.refreshMetadata name present updated) watch).2 role := by
  have queued := (@observe_queued name watch fails _ (.refreshMetadata name present updated) h.queued).1
  have leaves := @State.known_leaves name name watch.state present
  cases found : (watch.state.known name present).record name with
  | none =>
    have unchanged := @State.refreshMetadata_absent name watch.state present updated found
    have unmarked : (observe name fails (.refreshMetadata name present updated) watch).2
        = { watch with state := { watch.state.known name present with now := watch.state.now + 1 } } := by
      simp only [observe, perform, act, unchanged, Watch.mark]
      have missing : ({ watch.state.known name present with now := watch.state.now + 1 } : State).record name
          = none := found
      refine if_neg fun both => ?_
      rw [missing] at both
      cases both.2
    have after : Later name watch (observe name fails (.refreshMetadata name present updated) watch).2 := by
      rw [unmarked]
      exact ⟨⟨leaves.record, leaves.revision, leaves.repositories⟩, rfl, rfl, rfl, Nat.le_succ _⟩
    exact ⟨h.later after queued, fun role thread => thread.later after⟩
  | some summary =>
    obtain ⟨⟨shown, there, parts⟩, counted, repositories⟩ :=
      @State.refreshMetadata_found name watch.state present updated summary found
    have marked : (observe name fails (.refreshMetadata name present updated) watch).2
        = { watch with
            state := { watch.state.refreshMetadata name present updated with now := watch.state.now + 1 }
            published := watch.state.now, floors := floorsAfter watch.floors updated
            shown := shownAfter watch.shown updated } := by
      simp only [observe, perform, act, Watch.mark]
      have placed : ({ watch.state.refreshMetadata name present updated with
          now := watch.state.now + 1 } : State).record name = some shown := there
      refine if_pos ⟨trivial, ?_⟩
      rw [placed]
      rfl
    rw [marked] at queued ⊢
    have old : ∀ part read, summary.parts part = some read →
        (part ≠ .dependency_requests → watch.floors part ≤ read.at_time) ∧ read.at_time < watch.state.now := by
      intro part read value
      rcases leaves.record with same | ⟨-, placed⟩
      · exact ⟨fun shows => h.fresh summary (same.symm.trans found) part shows read value,
          h.recent summary (same.symm.trans found) part read value⟩
      · rw [← Option.some.inj (placed.symm.trans found)] at value
        cases value
    refine ⟨⟨fun other same part shows read value => ?_, fun part asked held => ⟨shown, there, ?_⟩,
      fun other same part read value => ?_, queued, repositories ▸ h.present, floorsAfter_le (fun part => Nat.le_of_lt (Nat.lt_of_le_of_lt (h.floors part) h.begun))
        fun good ok part read value => Nat.le_of_lt (recent good ok part read value), Nat.lt_succ_self _⟩, ?_⟩
    · obtain rfl : shown = other := Option.some.inj (there.symm.trans same)
      rw [parts] at value
      cases updated with
      | ok good => exact later_floor value (meets good rfl part shows read value)
      | error => exact (old part read value).1 shows
    · rw [parts]
      cases updated with
      | ok good => exact whole good rfl part asked
      | error =>
        obtain ⟨other, same, value⟩ := h.shown part asked held
        rcases leaves.record with kept | ⟨absent, -⟩
        · rwa [Option.some.inj (found.symm.trans (kept.trans same))]
        · rw [same] at absent
          cases absent
    · obtain rfl : shown = other := Option.some.inj (there.symm.trans same)
      rw [parts] at value
      refine Nat.lt_succ_of_lt ?_
      cases updated with
      | ok good => exact recent good rfl part read value
      | error => exact (old part read value).2
    · intro role thread
      refine ⟨fun held member part read value => Nat.lt_succ_of_lt (thread.recent held member part read value),
        fun revision time started past => ?_, fun revision time started => ?_, thread.inventory⟩
      · exact absurd (thread.started revision time started).1 (Nat.not_lt.mpr (Nat.le_of_lt past))
      · obtain ⟨before, below, -⟩ := thread.started revision time started
        refine ⟨Nat.lt_succ_of_lt before, ?_, fun _ => ⟨?_, shown, there⟩⟩
        · exact Nat.le_trans below (Nat.le_trans (Nat.le_succ _) (Nat.le_of_eq counted.symm))
        · exact Nat.lt_of_lt_of_eq (Nat.lt_succ_of_le below) counted.symm

/-- A rebuild of the project is published. -/
theorem publish_step {summary : ProjectSummary} {revision time : Nat} (h : WatchInv name watch)
    (thread : ThreadInv name watch role) (started : role.started = some (revision, time))
    (known : From role.seen summary.parts)
    (meets : ∀ part, part ≠ .dependency_requests → (part = .checkouts ∨ part = .events) ∧ time ≤ watch.published
      ∨ (time ≤ watch.published → ∀ read, summary.parts part = some read → watch.floors part ≤ read.at_time)
        ∧ (watch.shown part = true → (summary.parts part).isSome)) :
    WatchInv name (observe name fails (.publish name summary revision) watch).2
      ∧ ∀ role, ThreadInv name watch role →
        ThreadInv name (observe name fails (.publish name summary revision) watch).2 role := by
  have queued := (@observe_queued name watch fails _ (.publish name summary revision) h.queued).1
  obtain ⟨-, -, since⟩ := thread.started revision time started
  -- What the rebuild read is fresh unless a refreshMetadata was published since it started.
  have own : ∀ part, part ≠ .dependency_requests → ∀ read, summary.parts part = some read →
      watch.published < time → watch.floors part ≤ read.at_time := by
    intro part shows read value past
    obtain ⟨held, member, same⟩ := known part read value
    exact thread.fresh revision time started past held member part shows read same
  have own_recent : ∀ part read, summary.parts part = some read → read.at_time < watch.state.now := by
    intro part read value
    obtain ⟨held, member, same⟩ := known part read value
    exact thread.recent held member part read same
  -- What it leaves to the record is what a refreshMetadata published.
  have own_read : ∀ part, part ≠ .dependency_requests → watch.shown part = true →
      ¬ ((part = .checkouts ∨ part = .events) ∧ time ≤ watch.published) → (summary.parts part).isSome :=
    fun part asked held apart => ((meets part asked).resolve_left apart).2 held
  obtain ⟨shown, there, parts, whole⟩ : ∃ shown, (watch.state.publish name summary revision).record name = some shown
      ∧ (∀ part read, shown.parts part = some read →
        (part ≠ .dependency_requests → watch.floors part ≤ read.at_time) ∧ read.at_time < watch.state.now)
      ∧ ∀ part, part ≠ .dependency_requests → watch.shown part = true → (shown.parts part).isSome := by
    refine ⟨_, (Assoc.get_put name name _ _).trans (if_pos rfl), fun part read value => ?_, fun part asked held => ?_⟩
    · split at value
      · rename_i same
        refine ⟨fun shows => own part shows read value ?_, own_recent part read value⟩
        by_contra overlapped
        exact absurd same (Nat.ne_of_gt (since (Nat.not_lt.mp overlapped)).1)
      · split at value
        · rename_i absent
          refine ⟨fun shows => own part shows read value ?_, own_recent part read value⟩
          by_contra overlapped
          obtain ⟨held, present⟩ := (since (Nat.not_lt.mp overlapped)).2
          rw [absent] at present
          cases present
        · rename_i held present
          change (if _ then held.parts part else summary.parts part) = some read at value
          split at value
          · exact ⟨fun shows => h.fresh held present part shows read value, h.recent held present part read value⟩
          · rename_i others
            refine ⟨fun shows => ?_, own_recent part read value⟩
            by_cases overlapped : time ≤ watch.published
            · rcases meets part shows with ⟨mine, _⟩ | ⟨older, _⟩
              · exact absurd mine others
              · exact older overlapped read value
            · exact own part shows read value (Nat.not_le.mp overlapped)
    · obtain ⟨known, recorded, value⟩ := h.shown part asked held
      split
      · rename_i same
        exact own_read part asked held fun both => absurd same (Nat.ne_of_gt (since both.2).1)
      · split
        · rename_i absent
          rw [absent] at recorded
          cases recorded
        · rename_i other present
          obtain rfl := Option.some.inj (present.symm.trans recorded)
          show (if part = .checkouts ∨ part = .events then other.parts part else summary.parts part).isSome
          split
          · exact value
          · rename_i others
            exact own_read part asked held fun both => others both.1
  refine ⟨⟨fun other same part shows read value => ?_, fun part asked held => ⟨shown, there, whole part asked held⟩,
    fun other same part read value => ?_, queued, h.present, h.floors, Nat.lt_succ_of_lt h.begun⟩,
    fun role thread => ?_⟩
  · obtain rfl : shown = other := Option.some.inj (there.symm.trans same)
    exact (parts part read value).1 shows
  · obtain rfl : shown = other := Option.some.inj (there.symm.trans same)
    exact Nat.lt_succ_of_lt (parts part read value).2
  · refine ⟨fun held member part read value => Nat.lt_succ_of_lt (thread.recent held member part read value),
      thread.fresh, fun revision time started => ?_, thread.inventory⟩
    obtain ⟨before, below, since⟩ := thread.started revision time started
    exact ⟨Nat.lt_succ_of_lt before, below, fun overlapped => ⟨(since overlapped).1, shown, there⟩⟩

/-- The project is erased while nothing rebuilds it. -/
theorem erase_step (h : WatchInv name watch) :
    WatchInv name (observe name fails (.erase name) watch).2
      ∧ ∀ role : Role, role.started = none → ThreadInv name watch role →
        ThreadInv name (observe name fails (.erase name) watch).2 role := by
  have queued := (@observe_queued name watch fails _ (.erase name) h.queued).1
  have gone : ∀ summary, (watch.state.erase name).record name ≠ some summary := by
    intro summary there
    have none_there : (watch.state.erase name).record name = none :=
      (Assoc.get_erase name name _).trans (if_pos rfl)
    rw [none_there] at there
    cases there
  have marked : (observe name fails (.erase name) watch).2 = { watch with
      state := { watch.state.erase name with now := watch.state.now + 1 }, shown := fun _ => false } := by
    simp only [observe, perform, act, Watch.mark, if_true]
  rw [marked] at queued ⊢
  refine ⟨⟨fun summary there => absurd there (gone summary), ?_, fun summary there => absurd there (gone summary),
    queued, h.present, h.floors, Nat.lt_succ_of_lt h.begun⟩, fun role idle thread => ?_⟩
  · intro part _ shown
    cases shown
  refine ⟨fun held member part read value => Nat.lt_succ_of_lt (thread.recent held member part read value),
    fun revision time started => ?_, fun revision time started => ?_, thread.inventory⟩
  · rw [idle] at started
    cases started
  · rw [idle] at started
    cases started

end
end CkGit.Index
