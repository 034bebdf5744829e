import CkGit.ReceiveHook.Model

/-!
A push serves every ref that no call of the store fails for, exactly when the
whole input is accepted and no job fails to be queued before such a ref.
-/
namespace CkGit.ReceiveHook
open CkGit.Base CkGit.Ci CkGit.Workflow
open CkGit.Listings (isObjectId isXDigit isHeadOrTag isValidReleaseTag)

variable {host : Host} {update : RefUpdate} {updates : List RefUpdate} {push : Push}

theorem id_avoids {id : Bytes} {byte : UInt8} (valid : isObjectId id = true) (other : isXDigit byte = false) :
    byte ∉ id := by
  intro inside
  rw [isObjectId, Bool.and_eq_true] at valid
  have digit := List.all_eq_true.mp valid.2 byte inside
  rw [other] at digit
  cases digit

theorem fields_line (h : update.WellFormed) : fields update.line = some update := by
  have clean : ∀ field ∈ [update.old_id, update.new_id, update.ref], space ∉ field := by
    simp only [List.mem_cons, List.not_mem_nil, or_false, forall_eq_or_imp, forall_eq]
    exact ⟨id_avoids h.old_id (by decide), id_avoids h.new_id (by decide), h.spaces⟩
  rw [fields, RefUpdate.line, List.splitOn_intercalate space clean (by simp)]

theorem line_clean (h : update.WellFormed) : newline ∉ update.line := by
  have old_id : newline ∉ update.old_id := id_avoids h.old_id (by decide)
  have new_id : newline ∉ update.new_id := id_avoids h.new_id (by decide)
  have other : newline ≠ space := by decide
  simp [RefUpdate.line, List.intercalate, List.intersperse, old_id, new_id, h.newlines, other]

theorem line_filled (update : RefUpdate) : update.line.isEmpty = false := by
  simp [RefUpdate.line, List.intercalate, List.intersperse]

theorem validateUpdate_line (h : update.WellFormed) :
    validateUpdate update.line = .ok () ↔ isAllowedRef update.ref = true := by
  rw [validateUpdate, fields_line h]
  simp only [h.old_id, h.new_id, h.lengths, true_and]
  split
  · rename_i allowed
    exact ⟨fun _ => allowed, fun _ => rfl⟩
  · rename_i refused
    exact ⟨nofun, fun allowed => absurd allowed refused⟩

theorem validateLines_updates (well_formed : ∀ update ∈ updates, update.WellFormed) (count : Nat)
    (few : count ≤ kMaximumRefUpdates) :
    validateLines count (updates.map RefUpdate.line) = .ok () ↔
      count + updates.length ≤ kMaximumRefUpdates ∧ ∀ update ∈ updates, isAllowedRef update.ref = true := by
  induction updates generalizing count with
  | nil => simpa [validateLines] using few
  | cons update rest ih =>
    have first := validateUpdate_line (well_formed update List.mem_cons_self)
    have later := ih (fun other inside => well_formed other (List.mem_cons_of_mem _ inside)) (count + 1)
    rw [List.map_cons, validateLines, line_filled]
    by_cases many : count + 1 > kMaximumRefUpdates
    · simp only [many, or_true, if_true]
      refine ⟨nofun, fun fits => ?_⟩
      have := fits.1
      rw [List.length_cons] at this
      omega
    · simp only [many, Bool.false_eq_true, or_self, if_false]
      have count_eq : count + 1 + rest.length = count + (update :: rest).length := by
        rw [List.length_cons]
        omega
      rw [List.forall_mem_cons, ← first, ← count_eq]
      cases checked : validateUpdate update.line with
      | error message =>
        exact ⟨nofun, fun ok => nomatch ok.2.1⟩
      | ok _ => exact (later (by omega)).trans ⟨fun ok => ⟨ok.1, rfl, ok.2⟩, fun ok => ⟨ok.1, ok.2.2⟩⟩

/-- The input passes its bounds and every ref is one the hook allows. -/
def Accepted (push : Push) : Prop :=
  push.input.length ≤ kMaximumInputBytes ∧ push.updates.length ≤ kMaximumRefUpdates ∧
    ∀ update ∈ push.updates, isAllowedRef update.ref = true

theorem input_lines (push : Push) :
    (push.input.splitOn newline).dropLast = push.updates.map RefUpdate.line := by
  have clean : ∀ line ∈ push.updates.map RefUpdate.line, newline ∉ line := by
    intro line inside
    obtain ⟨update, there, rfl⟩ := List.mem_map.mp inside
    exact line_clean (push.well_formed update there)
  rw [Push.input, splitOn_framed clean, List.dropLast_concat]

theorem validateUpdates_input (push : Push) :
    validateUpdates push.input = .ok () ↔
      push.updates.length ≤ kMaximumRefUpdates ∧ ∀ update ∈ push.updates, isAllowedRef update.ref = true := by
  have lines := validateLines_updates push.well_formed 0 (Nat.zero_le _)
  rw [Nat.zero_add] at lines
  rw [← lines, validateUpdates, input_lines]
  cases shape : push.updates with
  | nil => simp [Push.input, shape, framed, validateLines]
  | cons update rest =>
    have filled : push.updates.map RefUpdate.line ≠ [] := by simp [shape]
    have last : push.input.getLast? = some newline := framed_getLast filled
    have some_input : push.input.isEmpty = false := by
      cases input : push.input with
      | nil =>
        rw [input] at last
        cases last
      | cons => rfl
    simp only [some_input, last, Bool.false_eq_true, if_false, ne_eq, not_true_eq_false]

/-- An accepted input is queued line by line; any other leaves the state. -/
theorem run_input (enabled : host.ci_enabled = true) (push : Push) (state : CiState) :
    (Accepted push → run host push.input state = (enqueueLines host (push.updates.map RefUpdate.line) state).2) ∧
      (¬ Accepted push → run host push.input state = state) := by
  have valid := validateUpdates_input push
  refine ⟨fun accepted => ?_, fun refused => ?_⟩
  · rw [run, if_neg (Nat.not_lt.mpr accepted.1), valid.mpr accepted.2]
    simp only
    split
    · rename_i empty
      rw [← input_lines, List.isEmpty_iff.mp empty]
      rfl
    · rw [enqueueCiJobs, if_neg (by simp [enabled]), input_lines]
  · rw [run]
    split
    · rfl
    · rename_i fits
      cases checked : validateUpdates push.input with
      | error => rfl
      | ok => exact absurd ⟨Nat.le_of_not_lt fits, valid.mp checked⟩ refused

/-- A branch head or tag that is created or updated. -/
def RefUpdate.queues (update : RefUpdate) : Bool := (isHead update.ref || isTag update.ref) && !update.deletion

/-- A deleted tag that may have a release. -/
def RefUpdate.removes (update : RefUpdate) : Bool :=
  isTag update.ref && update.deletion && isValidReleaseTag update.tag

variable (host) in
/-- The update gets its job queued, even when the call then throws. -/
def RefUpdate.enters (update : RefUpdate) : Bool := update.queues && host.fault update.ref != .before

variable (host) in
/-- The update ends the loop. -/
def RefUpdate.stops (update : RefUpdate) : Bool := update.queues && host.fault update.ref != .none

variable (host) in
/-- The update has its release removed. -/
def RefUpdate.drops (update : RefUpdate) : Bool := update.removes && host.fault update.ref != .before

variable (host) in
/-- The updates the loop reaches. -/
def reached : List RefUpdate → List RefUpdate
  | [] => []
  | update :: rest => update :: if update.stops host then [] else reached rest

/-- The ref and the commit of a queued job or group. -/
def Queued.key (queued : Queued) : Bytes × Bytes := (queued.parent.ref, queued.parent.commit_id)

def RefUpdate.key (update : RefUpdate) : Bytes × Bytes := (update.ref, update.new_id)

/-- What a call of the loop does: what it queues, and which releases it removes. -/
structure Effect (state after : CiState) (keys : List (Bytes × Bytes)) (gone : Bytes → Prop) : Prop where
  queued : ∃ added, after.queued = state.queued ++ added ∧ added.map Queued.key = keys
  releases : ∀ release, release ∈ after.releases ↔ release ∈ state.releases ∧ ¬ gone release.val

theorem Effect.none (state : CiState) : Effect state state [] fun _ => False :=
  ⟨⟨[], by simp, rfl⟩, fun release => by simp⟩

theorem Effect.trans {state middle after : CiState} {keys more : List (Bytes × Bytes)} {gone lost : Bytes → Prop}
    (first : Effect state middle keys gone) (second : Effect middle after more lost) :
    Effect state after (keys ++ more) fun tag => gone tag ∨ lost tag := by
  obtain ⟨added, queued, same⟩ := first.queued
  obtain ⟨others, later, rest⟩ := second.queued
  refine ⟨⟨added ++ others, by rw [later, queued, List.append_assoc], by rw [List.map_append, same, rest]⟩, ?_⟩
  intro release
  rw [second.releases, first.releases, not_or, and_assoc]

theorem Effect.congr {state after : CiState} {keys : List (Bytes × Bytes)} {gone lost : Bytes → Prop}
    (h : Effect state after keys gone) (same : ∀ tag, gone tag ↔ lost tag) : Effect state after keys lost :=
  ⟨h.queued, fun release => by rw [h.releases, same]⟩

/-- A workflow is queued as one job or as one group, under its ref and commit. -/
theorem enqueueCiWorkflow_eq (host : Host) (parent : CiJobRequest) :
    ∃ queued : Queued, queued.key = (parent.ref, parent.commit_id) ∧
      enqueueCiWorkflow host parent = storeCall host parent.ref (·.enqueue queued) := by
  have job (request : CiJobRequest) (ref : request.ref = parent.ref) (commit : request.commit_id = parent.commit_id) :
      ∃ queued : Queued, queued.key = (parent.ref, parent.commit_id) ∧
        enqueueCiJob host request = storeCall host parent.ref (·.enqueue queued) :=
    ⟨.job request, by rw [← ref, ← commit]; rfl, by rw [enqueueCiJob, ref]⟩
  unfold enqueueCiWorkflow
  simp only
  split
  · exact job _ rfl rfl
  · split
    · exact job _ rfl rfl
    · split
      · exact job _ rfl rfl
      · refine ⟨.group _ _, ?_, rfl⟩
        rfl

theorem storeCall_eq (host : Host) (ref : Bytes) (effect : CiState → CiState) (state : CiState) :
    storeCall host ref effect state =
      (host.fault ref == .none, if host.fault ref = .before then state else effect state) := by
  unfold storeCall
  cases host.fault ref <;> rfl

theorem effect_enqueue (state : CiState) (queued : Queued) :
    Effect state (state.enqueue queued) [queued.key] fun _ => False :=
  ⟨⟨[queued], rfl, rfl⟩, fun release => by simp [CiState.enqueue]⟩

theorem effect_removeRelease (state : CiState) (tag : Bytes) :
    Effect state (state.removeRelease tag) [] fun gone => gone = tag :=
  ⟨⟨[], by simp [CiState.removeRelease], rfl⟩, fun release => by simp [CiState.removeRelease]⟩

/-- What one update does. -/
theorem enqueueUpdate_effect (host : Host) (update : RefUpdate) (state : CiState) :
    (enqueueUpdate host update state).1 = !update.stops host ∧
      Effect state (enqueueUpdate host update state).2 (if update.enters host then [update.key] else [])
        fun tag => update.drops host = true ∧ tag = update.tag := by
  have nothing : Effect state state [] fun tag => False ∧ tag = update.tag :=
    (Effect.none state).congr fun tag => by simp
  unfold enqueueUpdate RefUpdate.stops RefUpdate.enters RefUpdate.drops RefUpdate.queues RefUpdate.removes
  split
  · rename_i other
    simpa [other.1, other.2] using nothing
  · rename_i known
    split
    · rename_i deleted
      split
      · rename_i valid
        refine ⟨by simp [deleted.1, deleted.2], ?_⟩
        simp only [deleted.1, deleted.2, valid, Bool.and_true, Bool.or_true, Bool.not_true, Bool.and_false,
          Bool.false_and, Bool.true_and, Bool.false_eq_true, if_false]
        rw [storeCall_eq]
        cases host.fault update.ref with
        | none => exact (effect_removeRelease state update.tag).congr fun tag => by simp
        | before => exact nothing.congr fun tag => by simp
        | after => exact (effect_removeRelease state update.tag).congr fun tag => by simp
      · rename_i invalid
        simpa [deleted.1, deleted.2, invalid] using nothing
    · rename_i kept
      have live : (isHead update.ref || isTag update.ref) = true := by
        rw [Bool.or_eq_true]
        by_contra none
        rw [not_or] at none
        exact known none
      split
      · rename_i deletion
        have branch : isTag update.ref = false := Bool.eq_false_of_not_eq_true fun tag => kept ⟨tag, deletion⟩
        simpa [deletion, branch] using nothing
      · rename_i created
        have stays : update.deletion = false := Bool.eq_false_of_not_eq_true created
        obtain ⟨queued, key, call⟩ : ∃ queued : Queued, queued.key = update.key ∧
            enqueueCiWorkflow host (jobRequest host update) = storeCall host update.ref (·.enqueue queued) :=
          enqueueCiWorkflow_eq host (jobRequest host update)
        have entry := effect_enqueue state queued
        rw [key] at entry
        rw [call, storeCall_eq]
        simp only [live, stays, Bool.not_false, Bool.true_and, Bool.and_false, Bool.false_and, Bool.false_eq_true]
        cases host.fault update.ref with
        | none => exact ⟨rfl, entry.congr fun tag => by simp⟩
        | before => exact ⟨rfl, nothing⟩
        | after => exact ⟨rfl, entry.congr fun tag => by simp⟩

/-- What the loop does: the updates it reaches, each on its own. -/
theorem enqueueLines_effect (host : Host) (well_formed : ∀ update ∈ updates, update.WellFormed) (state : CiState) :
    Effect state (enqueueLines host (updates.map RefUpdate.line) state).2
      (((reached host updates).filter (RefUpdate.enters host)).map RefUpdate.key)
      fun tag => ∃ update ∈ reached host updates, update.drops host = true ∧ tag = update.tag := by
  induction updates generalizing state with
  | nil => exact (Effect.none state).congr fun tag => by simp [reached]
  | cons update rest ih =>
    obtain ⟨returned, effect⟩ := enqueueUpdate_effect host update state
    rw [List.map_cons, enqueueLines, fields_line (well_formed update List.mem_cons_self)]
    have keys (others : List RefUpdate) :
        ((update :: others).filter (RefUpdate.enters host)).map RefUpdate.key =
          (if update.enters host then [update.key] else []) ++
            (others.filter (RefUpdate.enters host)).map RefUpdate.key := by
      rw [List.filter_cons]
      split <;> simp
    cases stops : update.stops host with
    | true =>
      rw [stops] at returned
      have only : reached host (update :: rest) = [update] := by simp [reached, stops]
      rw [only, keys]
      simp only
      split
      · rename_i after ended
        rw [ended] at returned
        cases returned
      · rename_i ended
        rw [ended] at effect
        simpa using effect
    | false =>
      rw [stops] at returned
      have all : reached host (update :: rest) = update :: reached host rest := by simp [reached, stops]
      rw [all, keys]
      simp only
      split
      · rename_i after ended
        rw [ended] at effect
        have later := ih (fun other inside => well_formed other (List.mem_cons_of_mem _ inside)) after
        exact (effect.trans later).congr fun tag => by simp
      · rename_i after ended
        rw [ended] at returned
        cases returned

/-- The jobs and groups a push queues. -/
def newlyQueued (before after : CiState) : List Queued := after.queued.drop before.queued.length

/-- Every branch head or tag that was created or updated, and for which the
store works, has one job or group with its new commit, no deleted ref has one,
every deleted tag for which the store works has lost its release, and no other
release is lost. -/
structure Served (host : Host) (push : Push) (before after : CiState) : Prop where
  kept : before.queued <+: after.queued
  queued : ∀ update ∈ push.updates, isHead update.ref = true ∨ isTag update.ref = true → update.deletion = false →
    host.fault update.ref = .none →
    ((newlyQueued before after).filter (·.parent.ref = update.ref)).map (·.parent.commit_id) = [update.new_id]
  deleted : ∀ update ∈ push.updates, update.deletion = true → ∀ queued ∈ newlyQueued before after,
    queued.parent.ref ≠ update.ref
  removed : ∀ update ∈ push.updates, isTag update.ref = true → update.deletion = true →
    host.fault update.ref = .none → ∀ release ∈ after.releases, release.val ≠ update.tag
  others : ∀ release ∈ before.releases,
    (∀ update ∈ push.updates, isTag update.ref = true → update.deletion = true → update.tag ≠ release.val) →
    release ∈ after.releases
  created : ∀ release ∈ after.releases, release ∈ before.releases

/-- The store works for the update, and the update has something to do. -/
def Due (host : Host) (before : CiState) (update : RefUpdate) : Prop :=
  host.fault update.ref = .none ∧
    ((isHead update.ref = true ∨ isTag update.ref = true) ∧ update.deletion = false ∨
      isTag update.ref = true ∧ update.deletion = true ∧ ∃ release ∈ before.releases, release.val = update.tag)

/-- Where an update has something to do, the whole input is accepted, and no job
before it fails to be queued. -/
def Unhindered (host : Host) (push : Push) (before : CiState) : Prop :=
  ∀ first update rest, push.updates = first ++ update :: rest → Due host before update →
    Accepted push ∧ ∀ earlier ∈ first, (isHead earlier.ref = true ∨ isTag earlier.ref = true) →
      earlier.deletion = false → host.fault earlier.ref = .none

theorem queues_iff : update.queues = true ↔
    (isHead update.ref = true ∨ isTag update.ref = true) ∧ update.deletion = false := by
  simp [RefUpdate.queues]

theorem reached_sublist (host : Host) (updates : List RefUpdate) : (reached host updates).Sublist updates := by
  induction updates with
  | nil => exact .slnil
  | cons update rest ih =>
    rw [reached]
    split
    · exact (List.nil_sublist rest).cons_cons update
    · exact ih.cons_cons update

/-- An update behind others that do not end the loop is reached. -/
theorem mem_reached {first rest : List RefUpdate} (goes_on : ∀ earlier ∈ first, earlier.stops host = false) :
    update ∈ reached host (first ++ update :: rest) := by
  induction first with
  | nil => exact List.mem_cons_self
  | cons head tail ih =>
    rw [List.cons_append, reached, goes_on head List.mem_cons_self]
    exact List.mem_cons_of_mem _ (ih fun earlier inside => goes_on earlier (List.mem_cons_of_mem _ inside))

/-- Behind an update that ends the loop nothing is reached. -/
theorem reached_stops {first rest : List RefUpdate} {earlier : RefUpdate} (inside : earlier ∈ first)
    (stops : earlier.stops host = true) : ∀ other ∈ reached host (first ++ rest), other ∈ first := by
  induction first with
  | nil => cases inside
  | cons head tail ih =>
    intro other there
    rw [List.cons_append, reached, List.mem_cons] at there
    rcases there with rfl | later
    · exact List.mem_cons_self
    · split at later
      · cases later
      · rename_i goes_on
        rcases List.mem_cons.mp inside with rfl | behind
        · exact absurd stops goes_on
        · exact List.mem_cons_of_mem _ (ih behind other later)

/-- Under distinct refs the commits of a ref are those of its update. -/
theorem keys_of_ref {chosen : List RefUpdate} (distinct : (chosen.map RefUpdate.ref).Nodup)
    (inside : update ∈ chosen) :
    ((chosen.map RefUpdate.key).filter (·.1 = update.ref)).map Prod.snd = [update.new_id] := by
  induction chosen with
  | nil => cases inside
  | cons head tail ih =>
    rw [List.map_cons, List.nodup_cons] at distinct
    rw [List.map_cons, List.filter_cons]
    rcases List.mem_cons.mp inside with rfl | behind
    · have none_left : (tail.map RefUpdate.key).filter (·.1 = update.ref) = [] := by
        rw [List.filter_eq_nil_iff]
        intro key there same
        obtain ⟨other, held, rfl⟩ := List.mem_map.mp there
        exact distinct.1 (of_decide_eq_true same ▸ List.mem_map_of_mem held)
      have own : (decide (update.key.1 = update.ref)) = true := decide_eq_true rfl
      rw [if_pos own, none_left]
      rfl
    · have differs : head.ref ≠ update.ref := fun same => distinct.1 (same ▸ List.mem_map_of_mem behind)
      have other : ¬ (decide (head.key.1 = update.ref)) = true := fun same => differs (of_decide_eq_true same)
      rw [if_neg other]
      exact ih distinct.2 behind

theorem newlyQueued_append {before after : CiState} {added : List Queued}
    (queued : after.queued = before.queued ++ added) : newlyQueued before after = added := by
  rw [newlyQueued, queued, List.drop_left]

theorem commits_eq (added : List Queued) (ref : Bytes) :
    (added.filter (·.parent.ref = ref)).map (·.parent.commit_id)
      = ((added.map Queued.key).filter (·.1 = ref)).map Prod.snd := by
  rw [List.filter_map, List.map_map]
  rfl

theorem tag_ref {other : RefUpdate} (tag : isTag update.ref = true) (other_tag : isTag other.ref = true)
    (same : other.tag = update.tag) : other.ref = update.ref := by
  obtain ⟨rest, whole⟩ := List.isPrefixOf_iff_prefix.mp tag
  obtain ⟨others, other_whole⟩ := List.isPrefixOf_iff_prefix.mp other_tag
  rw [RefUpdate.tag, RefUpdate.tag, ← whole, ← other_whole, List.drop_left, List.drop_left] at same
  rw [← whole, ← other_whole, same]

theorem goes_on_iff : update.stops host = false ↔
    ((isHead update.ref = true ∨ isTag update.ref = true) → update.deletion = false →
      host.fault update.ref = .none) := by
  rw [RefUpdate.stops, Bool.and_eq_false_imp, queues_iff, and_imp]
  simp

/-- A push with nothing to do for the host is served by leaving the state as it is. -/
theorem served_of_idle {before : CiState} (idle : ∀ update ∈ push.updates, ¬ Due host before update) :
    Served host push before before := by
  have nothing : newlyQueued before before = [] := by rw [newlyQueued, List.drop_length]
  refine ⟨List.prefix_rfl, ?_, ?_, ?_, fun release held _ => held, fun release held => held⟩
  · exact fun update inside branch live works => absurd ⟨works, .inl ⟨branch, live⟩⟩ (idle update inside)
  · intro update inside deletion queued held
    rw [nothing] at held
    cases held
  · exact fun update inside tag deletion works release held same =>
      absurd ⟨works, .inr ⟨tag, deletion, release, held, same⟩⟩ (idle update inside)

/-- A push that is not hindered serves its refs. -/
theorem served_of_unhindered (enabled : host.ci_enabled = true) (before : CiState)
    (free : Unhindered host push before) :
    Served host push before (run host push.input before) := by
  obtain ⟨accepted, refused⟩ := run_input enabled push before
  by_cases accept : Accepted push
  · rw [accepted accept]
    have effect := enqueueLines_effect host push.well_formed before
    obtain ⟨added, grown, keys⟩ := effect.queued
    have sublist := reached_sublist host push.updates
    have distinct : (((reached host push.updates).filter (RefUpdate.enters host)).map RefUpdate.ref).Nodup :=
      push.distinct.sublist ((List.filter_sublist.trans sublist).map _)
    have arrives (update : RefUpdate) (inside : update ∈ push.updates) (due : Due host before update) :
        update ∈ reached host push.updates := by
      obtain ⟨first, rest, split⟩ := List.append_of_mem inside
      rw [split]
      exact mem_reached fun earlier held => goes_on_iff.mpr ((free first update rest split due).2 earlier held)
    refine ⟨⟨added, grown.symm⟩, ?_, ?_, ?_, ?_, fun release there => ((effect.releases release).mp there).1⟩
    · intro update inside branch live works
      have chosen : update ∈ (reached host push.updates).filter (RefUpdate.enters host) := by
        rw [List.mem_filter]
        refine ⟨arrives update inside ⟨works, .inl ⟨branch, live⟩⟩, ?_⟩
        rw [RefUpdate.enters, queues_iff.mpr ⟨branch, live⟩, works]
        rfl
      rw [newlyQueued_append grown, commits_eq, keys]
      exact keys_of_ref distinct chosen
    · intro update inside deletion queued held same
      rw [newlyQueued_append grown] at held
      have key : queued.key ∈ added.map Queued.key := List.mem_map_of_mem held
      rw [keys] at key
      obtain ⟨other, chosen, same_key⟩ := List.mem_map.mp key
      rw [List.mem_filter, RefUpdate.enters, Bool.and_eq_true, queues_iff] at chosen
      have same_ref : other.ref = update.ref := (congrArg Prod.fst same_key).trans same
      have one := List.inj_on_of_nodup_map push.distinct (sublist.subset chosen.1) inside same_ref
      rw [one, deletion] at chosen
      exact absurd chosen.2.1.2 (by decide)
    · intro update inside tag deletion works release there same
      obtain ⟨held, stays⟩ := (effect.releases release).mp there
      refine stays ⟨update, arrives update inside ⟨works, .inr ⟨tag, deletion, release, held, same⟩⟩, ?_, same⟩
      rw [RefUpdate.drops, RefUpdate.removes, tag, deletion, ← same, release.property, works]
      rfl
    · intro release held untouched
      refine (effect.releases release).mpr ⟨held, ?_⟩
      rintro ⟨update, there, drops, same⟩
      rw [RefUpdate.drops, RefUpdate.removes, Bool.and_eq_true, Bool.and_eq_true, Bool.and_eq_true] at drops
      exact untouched update (sublist.subset there) drops.1.1.1 drops.1.1.2 same.symm
  · rw [refused accept]
    have idle (update : RefUpdate) (inside : update ∈ push.updates) : ¬ Due host before update := by
      intro due
      obtain ⟨first, rest, split⟩ := List.append_of_mem inside
      exact accept (free first update rest split due).1
    exact served_of_idle idle

/-- A push that serves its refs was not hindered. -/
theorem unhindered_of_served (enabled : host.ci_enabled = true) (before : CiState)
    (served : Served host push before (run host push.input before)) : Unhindered host push before := by
  obtain ⟨accepted, refused⟩ := run_input enabled push before
  intro first update rest split due
  have inside : update ∈ push.updates := by
    rw [split]
    simp
  obtain ⟨works, work⟩ := due
  have accept : Accepted push := by
    by_contra bad
    rw [refused bad] at served
    rcases work with ⟨branch, live⟩ | ⟨tag, deletion, release, held, same⟩
    · have one := served.queued update inside branch live works
      rw [newlyQueued, List.drop_length] at one
      cases one
    · exact served.removed update inside tag deletion works release held same
  refine ⟨accept, fun earlier held => goes_on_iff.mp ?_⟩
  by_contra stops
  have behind : ∀ other ∈ reached host push.updates, other ∈ first := by
    rw [split]
    exact reached_stops held (Bool.eq_true_of_not_eq_false stops)
  have unreached : ∀ other ∈ reached host push.updates, other.ref ≠ update.ref := by
    intro other there same
    have distinct := push.distinct
    rw [split, List.map_append, List.map_cons, List.nodup_append] at distinct
    exact distinct.2.2 _ (List.mem_map_of_mem (behind other there)) _ List.mem_cons_self same
  rw [accepted accept] at served
  have effect := enqueueLines_effect host push.well_formed before
  obtain ⟨added, grown, keys⟩ := effect.queued
  rcases work with ⟨branch, live⟩ | ⟨tag, deletion, release, there, same⟩
  · have one := served.queued update inside branch live works
    rw [newlyQueued_append grown, commits_eq, keys] at one
    have none_left : (((reached host push.updates).filter (RefUpdate.enters host)).map RefUpdate.key).filter
        (·.1 = update.ref) = [] := by
      rw [List.filter_eq_nil_iff]
      intro key chosen same
      obtain ⟨other, kept, rfl⟩ := List.mem_map.mp chosen
      exact unreached other (List.mem_filter.mp kept).1 (of_decide_eq_true same)
    rw [none_left] at one
    cases one
  · have lost : release ∉ (enqueueLines host (push.updates.map RefUpdate.line) before).2.releases := fun still =>
      served.removed update inside tag deletion works release still same
    rw [effect.releases, not_and, not_not] at lost
    obtain ⟨other, reaches, drops, same_tag⟩ := lost there
    rw [RefUpdate.drops, RefUpdate.removes, Bool.and_eq_true, Bool.and_eq_true, Bool.and_eq_true] at drops
    exact unreached other reaches (tag_ref tag drops.1.1.1 (same_tag.symm.trans same))

/-- A push serves its refs exactly when it is not hindered. -/
theorem served_iff (host : Host) (enabled : host.ci_enabled = true) (push : Push) (before : CiState) :
    Served host push before (run host push.input before) ↔ Unhindered host push before :=
  ⟨unhindered_of_served enabled before, served_of_unhindered enabled before⟩

/-- A host whose store fails for one ref before it does anything. -/
def hostFailing (ref : String) : Host where
  project_name := ascii "demo"
  client_id := ascii "alice"
  now := 0
  ci_enabled := true
  workflow _ := none
  prepared _ := false
  job_id ref := ref
  child_id ref name := ref ++ name
  fault other := if other = ascii ref then .before else .none

def zeroId : Bytes := List.replicate 40 '0'.toUInt8
def commitId : Bytes := List.replicate 40 'a'.toUInt8

def creation (ref : String) : RefUpdate := { old_id := zeroId, new_id := commitId, ref := ascii ref }
def deletion (ref : String) : RefUpdate := { old_id := commitId, new_id := zeroId, ref := ascii ref }

private theorem ids_well_formed {ref : String} (spaces : space ∉ ascii ref) (newlines : newline ∉ ascii ref) :
    (creation ref).WellFormed ∧ (deletion ref).WellFormed := by
  have zero : isObjectId zeroId = true := by decide
  have commit : isObjectId commitId = true := by decide
  exact ⟨⟨zero, commit, rfl, spaces, newlines⟩, ⟨commit, zero, rfl, spaces, newlines⟩⟩

/-- A deleted tag, a new branch and another deleted tag. -/
def releasePush : Push where
  updates := [deletion "refs/tags/v1", creation "refs/heads/main", deletion "refs/tags/v2"]
  well_formed := by
    simp only [List.mem_cons, List.not_mem_nil, or_false, forall_eq_or_imp, forall_eq]
    exact ⟨(ids_well_formed (by decide) (by decide)).2, (ids_well_formed (by decide) (by decide)).1,
      (ids_well_formed (by decide) (by decide)).2⟩
  distinct := by decide

def releaseState : CiState where
  releases := [⟨ascii "v1", by decide⟩, ⟨ascii "v2", by decide⟩]

/-- The first release is not removed: the branch has its job and the second release is gone. -/
theorem served_iff_releases : Unhindered (hostFailing "refs/tags/v1") releasePush releaseState
    ∧ Served (hostFailing "refs/tags/v1") releasePush releaseState
      (run (hostFailing "refs/tags/v1") releasePush.input releaseState) := by
  have accepted : Accepted releasePush := ⟨by decide +kernel, by decide, by decide⟩
  have queues : ∀ update ∈ releasePush.updates, update.deletion = false →
      (hostFailing "refs/tags/v1").fault update.ref = .none := by decide
  have free : Unhindered (hostFailing "refs/tags/v1") releasePush releaseState := by
    intro first update rest split _
    refine ⟨accepted, fun earlier before _ live => queues earlier ?_ live⟩
    rw [split]
    exact List.mem_append_left _ before
  exact ⟨free, (served_iff _ rfl releasePush releaseState).mpr free⟩

/-- Two new branches. -/
def branchesPush : Push where
  updates := [creation "refs/heads/dev", creation "refs/heads/main"]
  well_formed := by
    simp only [List.mem_cons, List.not_mem_nil, or_false, forall_eq_or_imp, forall_eq]
    exact ⟨(ids_well_formed (by decide) (by decide)).1, (ids_well_formed (by decide) (by decide)).1⟩
  distinct := by decide

/-- The first branch is not queued, and the second has no job either. -/
theorem throw_costs_branch : ¬ ∀ (host : Host) (push : Push) (before : CiState), host.ci_enabled = true →
    Served host push before (run host push.input before) := by
  intro served
  have one := (served (hostFailing "refs/heads/dev") branchesPush {} rfl).queued (creation "refs/heads/main")
    (by simp [branchesPush]) (.inl (by decide)) (by decide) (by decide)
  have none_queued : (run (hostFailing "refs/heads/dev") branchesPush.input {}).queued.isEmpty = true := by
    decide +kernel
  rw [newlyQueued, List.isEmpty_iff.mp none_queued] at one
  cases one

end CkGit.ReceiveHook
