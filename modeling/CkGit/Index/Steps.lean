import CkGit.Index.Follow

/-!
What one operation under the index's mutex does to the record of a project, its
revision and the queue.
-/
namespace CkGit.Index
open CkGit.Base CkGit.Ci

section
variable (name other : Bytes) (state : State) (present : Bool)

@[simp] theorem State.known_metadata_revisions :
    (state.known other present).metadata_revisions = state.metadata_revisions := by
  unfold State.known; split <;> rfl

@[simp] theorem State.known_repositories : (state.known other present).repositories = state.repositories := by
  unfold State.known; split <;> rfl

@[simp] theorem State.known_urgent : (state.known other present).urgent = state.urgent := by
  unfold State.known; split <;> rfl

@[simp] theorem State.known_urgent_order : (state.known other present).urgent_order = state.urgent_order := by
  unfold State.known; split <;> rfl

/-- The record is the same or a new placeholder, and the revision is the same. -/
structure Leaves (before after : State) : Prop where
  record : after.record name = before.record name
    ∨ (before.record name = none ∧ after.record name = some placeholder)
  revision : after.revision name = before.revision name
  repositories : after.repositories = before.repositories

theorem Leaves.refl : Leaves name state state := ⟨.inl rfl, rfl, rfl⟩

variable {name other state present}

theorem Leaves.trans {first second third : State} (earlier : Leaves name first second)
    (later : Leaves name second third) : Leaves name first third := by
  refine ⟨?_, later.revision.trans earlier.revision, later.repositories.trans earlier.repositories⟩
  rcases earlier.record with same | ⟨absent, placed⟩
  · rw [← same]
    exact later.record
  · rcases later.record with still | ⟨gone, -⟩
    · exact .inr ⟨absent, still.trans placed⟩
    · rw [placed] at gone
      cases gone

theorem State.known_leaves : Leaves name state (state.known other present) := by
  refine ⟨?_, by simp [State.revision], by simp⟩
  unfold State.known
  split
  · rename_i added
    by_cases same : name = other
    · subst same
      refine .inr ⟨by simpa using (Bool.and_eq_true_iff.mp added).2, ?_⟩
      exact (Assoc.get_put name name _ _).trans (if_pos rfl)
    · exact .inl ((Assoc.get_put other name _ _).trans (if_neg same))
  · exact .inl rfl

theorem foldl_known_leaves (names : List Bytes) :
    Leaves name state (names.foldl (fun state name => state.known name true) state) := by
  induction names generalizing state with
  | nil => exact Leaves.refl name state
  | cons other rest ih => exact State.known_leaves.trans ih

theorem State.reconcile_leaves {names : List Bytes} (member : name ∈ names) :
    Leaves name state (state.reconcile names) := by
  refine Leaves.trans (?_ : Leaves name state { state with
    records := state.records.filter fun record => record.1 ∈ names
    metadata_revisions := state.metadata_revisions.filter fun revision =>
      revision.1 ∈ names ∨ (state.record revision.1).isNone }) (foldl_known_leaves names)
  refine ⟨.inl ?_, ?_, rfl⟩
  · exact Assoc.get_filter fun _ => by simpa using member
  · exact congrArg (Option.getD · 0) (Assoc.get_filter fun _ => by simp [member])

/-- The operations that replace the record or the revision of the project. -/
def Touches {β : Type} (name : Bytes) (op : IndexOp β) : Prop :=
  match op with
  | .refreshMetadata other _ _ | .erase other | .publish other _ _ => other = name
  | .reconcile names => name ∉ names
  | _ => False

theorem State.takeUrgent_leaves : Leaves name state state.takeUrgent.2 := by
  unfold State.takeUrgent
  split <;> exact ⟨.inl rfl, rfl, rfl⟩

theorem act_leaves {β : Type} {op : IndexOp β} {fails : Bool} (spared : ¬ Touches name op) :
    Leaves name state (act fails op state).2 := by
  cases op with
  | refresh other present =>
    refine State.known_leaves.trans (?_ : Leaves name (state.known other present) _)
    simp only [act, State.refresh]
    split <;> exact ⟨.inl rfl, rfl, rfl⟩
  | refreshMetadata other present updated =>
    have different : name ≠ other := fun same => spared same.symm
    refine State.known_leaves.trans (?_ : Leaves name (state.known other present) _)
    simp only [act, State.refreshMetadata]
    split
    · exact Leaves.refl name _
    · refine ⟨.inl ((Assoc.get_put other name _ _).trans (if_neg different)), ?_, rfl⟩
      exact congrArg (Option.getD · 0) ((Assoc.get_put other name _ _).trans (if_neg different))
  | erase other =>
    have different : name ≠ other := fun same => spared same.symm
    refine ⟨.inl ((Assoc.get_erase other name _).trans (if_neg different)), ?_, rfl⟩
    exact congrArg (Option.getD · 0) ((Assoc.get_erase other name _).trans (if_neg different))
  | publish other summary revision =>
    have different : name ≠ other := fun same => spared same.symm
    exact ⟨.inl ((Assoc.get_put other name _ _).trans (if_neg different)), rfl, rfl⟩
  | reconcile names => exact State.reconcile_leaves (not_not.mp spared)
  | takeUrgent honor_stop =>
    simp only [act]
    split
    · exact Leaves.refl name state
    · exact State.takeUrgent_leaves
  | await urgent_burst =>
    simp only [act, State.await]
    split
    · exact Leaves.refl name state
    split
    · exact Leaves.refl name state
    split
    · have taken := @State.takeUrgent_leaves name state
      split
      · rename_i first after found
        rw [found] at taken
        exact taken
      · rename_i after found
        rw [found] at taken
        exact taken
    · split
      · exact Leaves.refl name state
      · exact ⟨.inl rfl, rfl, rfl⟩
  | present | read | lockWork | unlockWork | inventory | sweepOrphans | stopping | unpend | start | fingerprint
  | inspect | find => exact ⟨.inl rfl, rfl, rfl⟩

theorem Queued.refresh (h : Queued state) :
    Queued (state.refresh other present)
      ∧ FirstInFirstOut (.refresh other present) state.urgent_order (state.refresh other present).urgent_order
      ∧ other ∈ (state.refresh other present).urgent_order := by
  unfold State.refresh FirstInFirstOut
  simp only [State.known_urgent]
  split
  · rename_i queued
    have there : other ∈ state.urgent_order := (h.same other).mp queued
    refine ⟨⟨by simpa using h.once, fun asked => by simpa using h.same asked⟩, ?_, by simpa using there⟩
    simp [there]
  · rename_i fresh
    have absent : other ∉ state.urgent_order := fun member => fresh ((h.same other).mpr member)
    refine ⟨⟨?_, fun asked => ?_⟩, by simp [absent], by simp⟩
    · simp only [State.known_urgent_order]
      exact List.nodup_append.mpr ⟨h.once, List.nodup_singleton other, fun a left b right same =>
        absent (List.mem_singleton.mp right ▸ same ▸ left)⟩
    · simp [h.same asked, or_comm]

theorem Queued.erase (h : Queued state) :
    Queued (state.erase other)
      ∧ FirstInFirstOut (.erase other) state.urgent_order (state.erase other).urgent_order := by
  refine ⟨⟨h.once.filter _, fun asked => ?_⟩, rfl⟩
  simp only [State.erase, List.mem_filter, h.same asked]

/-- What is taken is the front of the queue. -/
theorem Queued.takeUrgent (h : Queued state) :
    Queued state.takeUrgent.2
      ∧ (state.takeUrgent.2.urgent_order = state.urgent_order
        ∨ ∃ other, state.urgent_order = other :: state.takeUrgent.2.urgent_order)
      ∧ ∀ asked ∈ state.urgent_order, state.takeUrgent.1 = some asked ∨ asked ∈ state.takeUrgent.2.urgent_order := by
  have once := h.once
  unfold State.takeUrgent
  split
  · exact ⟨h, .inl rfl, fun asked member => .inr member⟩
  · rename_i front rest order
    rw [order] at once
    obtain ⟨absent, others⟩ := List.nodup_cons.mp once
    refine ⟨⟨others, fun asked => ?_⟩, .inr ⟨front, order⟩, fun asked member => ?_⟩
    · simp only [List.mem_filter, h.same asked, order, List.mem_cons, ne_eq, decide_eq_true_eq]
      constructor
      · rintro ⟨rfl | later, different⟩
        · exact absurd rfl different
        · exact later
      · refine fun later => ⟨.inr later, ?_⟩
        rintro rfl
        exact absent later
    · rw [order] at member
      rcases List.mem_cons.mp member with rfl | later
      · exact .inl rfl
      · exact .inr later

theorem foldl_known_queue (names : List Bytes) :
    (names.foldl (fun state name => state.known name true) state).urgent = state.urgent
      ∧ (names.foldl (fun state name => state.known name true) state).urgent_order = state.urgent_order := by
  induction names generalizing state with
  | nil => exact ⟨rfl, rfl⟩
  | cons other rest ih => exact ⟨ih.1.trans (by simp), ih.2.trans (by simp)⟩

theorem Queued.of_same {before after : State} (h : Queued before) (urgent : after.urgent = before.urgent)
    (order : after.urgent_order = before.urgent_order) :
    Queued after ∧ after.urgent_order = before.urgent_order :=
  ⟨⟨order ▸ h.once, fun asked => by rw [urgent, order]; exact h.same asked⟩, order⟩

theorem State.refreshMetadata_queue (updated : Except String Parts) :
    (state.refreshMetadata other present updated).urgent = state.urgent
      ∧ (state.refreshMetadata other present updated).urgent_order = state.urgent_order := by
  unfold State.refreshMetadata
  simp only
  split <;> simp

/-- Every operation keeps the queue. -/
theorem act_queued {β : Type} {op : IndexOp β} {fails : Bool} (h : Queued state) :
    Queued (act fails op state).2
      ∧ FirstInFirstOut op state.urgent_order (act fails op state).2.urgent_order := by
  cases op with
  | refresh other present => exact ⟨h.refresh.1, h.refresh.2.1⟩
  | refreshMetadata other present updated =>
    have same := @State.refreshMetadata_queue other state present updated
    exact h.of_same same.1 same.2
  | erase other => exact h.erase
  | reconcile names =>
    have same := @foldl_known_queue { state with
      records := state.records.filter fun record => record.1 ∈ names
      metadata_revisions := state.metadata_revisions.filter fun revision =>
        revision.1 ∈ names ∨ (state.record revision.1).isNone } names
    exact h.of_same same.1 same.2
  | takeUrgent honor_stop =>
    simp only [act]
    split
    · exact ⟨h, .inl rfl⟩
    · exact ⟨h.takeUrgent.1, h.takeUrgent.2.1⟩
  | await urgent_burst =>
    simp only [act, State.await]
    split
    · exact ⟨h, .inl rfl⟩
    split
    · exact ⟨h, .inl rfl⟩
    split
    · have taken := h.takeUrgent
      split
      · rename_i first after found
        rw [found] at taken
        exact ⟨taken.1, taken.2.1⟩
      · rename_i after found
        rw [found] at taken
        exact ⟨taken.1, taken.2.1⟩
    · split
      · exact ⟨h, .inl rfl⟩
      · exact ⟨⟨h.once, h.same⟩, .inl rfl⟩
  | present | read | lockWork | unlockWork | inventory | sweepOrphans | stopping | unpend | start | fingerprint
  | inspect | find | publish => exact h.of_same rfl rfl

end
end CkGit.Index
