import CkGit.Projects.Watch

/-!
What one operation does to the repository of a project, its checkouts and its
events, by a process that holds the locks the operation asks for.
-/
namespace CkGit.Projects
open CkGit.Base CkGit.Ci

namespace Logs
variable {logs : Logs} {event added : StateEvent} {file : Nat} {f : List StateEvent → List StateEvent}

theorem mem_events : event ∈ logs.events ↔
    ∃ file ∈ logs.names, ∃ content, logs.files[file]? = some content ∧ event ∈ content := by
  unfold events
  simp only [List.mem_flatMap]
  constructor
  · rintro ⟨file, named, member⟩
    cases there : logs.files[file]? with
    | none => simp [there] at member
    | some content => exact ⟨file, named, content, there, by simpa [there] using member⟩
  · rintro ⟨file, named, content, there, member⟩
    exact ⟨file, named, by simpa [there] using member⟩

theorem edit_file (i : Nat) :
    (logs.edit file f).files[i]? = if file = i then logs.files[i]?.map f else logs.files[i]? := by
  unfold edit
  rw [List.getElem?_modify]
  split
  · rfl
  · simp

theorem edit_edit (g : List StateEvent → List StateEvent) :
    (logs.edit file f).edit file g = logs.edit file fun content => g (f content) := by
  have files : ((logs.edit file f).edit file g).files = (logs.edit file fun content => g (f content)).files := by
    refine List.ext_getElem? fun i => ?_
    simp only [edit_file]
    split
    · rw [Option.map_map]
      rfl
    · rfl
  exact congrArg (fun files => { logs with files }) files

/-- A file that is written as it was. -/
theorem edit_same {content : List StateEvent} (there : logs.files[file]? = some content) :
    logs.edit file (fun _ => content) = logs := by
  have files : (logs.edit file fun _ => content).files = logs.files := by
    refine List.ext_getElem? fun i => ?_
    rw [edit_file]
    split
    · rename_i same
      rw [← same, there]
      rfl
    · rfl
  exact congrArg (fun files => { logs with files }) files

theorem mem_edit (h : event ∈ (logs.edit file f).events) :
    event ∈ logs.events ∨ ∃ content, logs.files[file]? = some content ∧ event ∈ f content := by
  obtain ⟨i, named, content, there, member⟩ := mem_events.mp h
  rw [edit_file] at there
  split at there
  · rename_i same
    subst same
    obtain ⟨before, found, rfl⟩ := Option.map_eq_some_iff.mp there
    exact .inr ⟨before, found, member⟩
  · exact .inl (mem_events.mpr ⟨i, named, content, there, member⟩)

/-- An edit that adds nothing. -/
theorem edit_less (less : ∀ content, logs.files[file]? = some content → ∀ event ∈ f content, event ∈ content)
    (h : event ∈ (logs.edit file f).events) : event ∈ logs.events := by
  obtain ⟨i, named, content, there, member⟩ := mem_events.mp h
  rw [edit_file] at there
  split at there
  · rename_i same
    subst same
    obtain ⟨before, found, rfl⟩ := Option.map_eq_some_iff.mp there
    exact mem_events.mpr ⟨file, named, before, found, less before found event member⟩
  · exact mem_events.mpr ⟨i, named, content, there, member⟩

/-- An edit that keeps the event. -/
theorem edit_keeps (keeps : ∀ content, logs.files[file]? = some content → event ∈ content → event ∈ f content)
    (h : event ∈ logs.events) : event ∈ (logs.edit file f).events := by
  obtain ⟨i, named, content, there, member⟩ := mem_events.mp h
  refine mem_events.mpr ⟨i, named, ?_⟩
  rw [edit_file]
  split
  · rename_i same
    subst same
    exact ⟨f content, by rw [there]; rfl, keeps content there member⟩
  · exact ⟨content, there, member⟩

theorem mem_openLog : event ∈ logs.openLog.events ↔ event ∈ logs.events := by
  unfold openLog
  split
  · rfl
  · rename_i missing
    have fresh : ∀ i : Nat, ((logs.files ++ [[]])[i]?).getD [] = (logs.files[i]?).getD [] := by
      intro i
      by_cases before : i < logs.files.length
      · rw [List.getElem?_append_left before]
      · rw [List.getElem?_append_right (Nat.not_lt.mp before), List.getElem?_singleton,
          List.getElem?_eq_none (Nat.not_lt.mp before)]
        split <;> rfl
    simp [events, names, missing, fresh]

theorem mem_linkArchive : event ∈ logs.linkArchive.events ↔ event ∈ logs.events := by
  simp only [events, names, linkArchive, List.mem_flatMap, List.mem_append]
  constructor
  · rintro ⟨file, (archived | live) | live, member⟩
    · exact ⟨file, .inl archived, member⟩
    · exact ⟨file, .inr live, member⟩
    · exact ⟨file, .inr live, member⟩
  · rintro ⟨file, named, member⟩
    exact ⟨file, .inl named, member⟩

theorem mem_unlinkLive (h : event ∈ logs.unlinkLive.events) : event ∈ logs.events := by
  simp only [events, names, unlinkLive, List.mem_flatMap, List.mem_append, Option.toList_none, List.not_mem_nil,
    or_false] at h ⊢
  obtain ⟨file, archived, member⟩ := h
  exact ⟨file, .inl archived, member⟩

/-- The live log has a second name. -/
theorem unlinkLive_keeps (archived : ∀ file, logs.live = some file → file ∈ logs.archives)
    (h : event ∈ logs.events) : event ∈ logs.unlinkLive.events := by
  simp only [events, names, unlinkLive, List.mem_flatMap, List.mem_append, Option.toList_none, List.not_mem_nil,
    or_false, Option.mem_toList] at h ⊢
  obtain ⟨file, named, member⟩ := h
  exact ⟨file, named.elim id (archived file), member⟩

theorem mem_append (h : event ∈ (logs.append added).events) : event = added ∨ event ∈ logs.events := by
  unfold append at h
  split at h
  · rename_i file live
    rcases mem_edit h with before | ⟨content, there, member⟩
    · exact .inr before
    · rcases List.mem_append.mp member with before | last
      · refine .inr (mem_events.mpr ⟨file, ?_, content, there, before⟩)
        simp [names, live]
      · exact .inl (List.mem_singleton.mp last)
  · exact .inr h

theorem append_keeps (h : event ∈ logs.events) : event ∈ (logs.append added).events := by
  unfold append
  split
  · exact edit_keeps (fun _ _ member => List.mem_append_left _ member) h
  · exact h

@[simp] theorem append_live : (logs.append added).live = logs.live := by
  unfold append; split <;> rfl

@[simp] theorem append_archives : (logs.append added).archives = logs.archives := by
  unfold append; split <;> rfl

end Logs

section
variable (name : Bytes)

structure WatchInv (watch : Watch) : Prop where
  there : name ∈ watch.store.repositories ↔ watch.phase = .existing
  bare : watch.phase = .clean ∨ watch.phase = .removed → Bare name watch.store
  own : name ∈ watch.store.repositories → Own name watch.store

/-- What a process noted is so, and it holds the lock for it. -/
structure RoleInv (store : Store) (role : Role) : Prop where
  found : ∀ there, role.found = some there →
    role.lifecycle = true ∧ (name ∈ store.repositories ↔ there = true)
  unregistered : role.unregistered = true →
    role.metadata = true ∧ ∀ checkout ∈ store.checkouts, checkout.project_name ≠ name
  logs : ∀ logs, role.logs = some logs → role.metadata = true ∧ store.logs = logs
  archived : role.archived = true →
    role.metadata = true ∧ ∀ file, store.logs.live = some file → file ∈ store.logs.archives

/-- The project is as before, with no more metadata. -/
structure Less (before after : Store) : Prop where
  repositories : name ∈ after.repositories ↔ name ∈ before.repositories
  incarnation : after.incarnation name = before.incarnation name
  checkouts : ∀ checkout ∈ after.checkouts, checkout.project_name = name → checkout ∈ before.checkouts
  events : ∀ event ∈ after.logs.events, event.project_name = name → event ∈ before.logs.events

variable {name}

theorem Less.bare {before after : Store} (h : Less name before after) (bare : Bare name before) :
    Bare name after :=
  ⟨fun checkout member same => bare.checkouts checkout (h.checkouts checkout member same) same,
    fun event member same => bare.events event (h.events event member same) same⟩

theorem Less.own {before after : Store} (h : Less name before after) (own : Own name before) :
    Own name after :=
  ⟨fun checkout member same => (own.checkouts checkout (h.checkouts checkout member same) same).trans h.incarnation.symm,
    fun event member same => (own.events event (h.events event member same) same).trans h.incarnation.symm⟩

theorem Bare.own {store : Store} (h : Bare name store) : Own name store :=
  ⟨fun checkout member same => absurd same (h.checkouts checkout member),
    fun event member same => absurd same (h.events event member)⟩

theorem WatchInv.less {watch : Watch} {after : Store} (h : WatchInv name watch)
    (less : Less name watch.store after) : WatchInv name { watch with store := after } :=
  ⟨less.repositories.trans h.there, fun gone => less.bare (h.bare gone),
    fun there => less.own (h.own (less.repositories.mp there))⟩

theorem Less.refl (store : Store) : Less name store store :=
  ⟨Iff.rfl, rfl, fun _ member _ => member, fun _ member _ => member⟩

variable {store : Store} {role : Role} {watch : Watch} {fails : Bool} {β : Type} {op : ProjectOp β}

/-- An operation that fails leaves the store and the phase alone. -/
theorem perform_cases (op : ProjectOp β) :
    perform fails op store = work op store
      ∨ ∃ reply, failure op = some reply ∧ perform fails op store = (reply, store) := by
  unfold perform
  split
  · rename_i reply failed
    exact .inr ⟨reply, failed, rfl⟩
  · exact .inl rfl

theorem next_failed {phase : Phase} {reply : β} (failed : failure op = some reply) :
    phase.next name op reply = phase := by
  cases op <;> cases failed <;> simp [Phase.next]

/-- The operations that may create, move or extend the project. -/
def Grows (name : Bytes) {β : Type} (op : ProjectOp β) : Prop :=
  match op with
  | .init other | .rename other | .putCheckout other _ | .append _ _ other _ => other = name
  | _ => False

theorem incarnation_put {other : Bytes} {count : Nat} {incarnations : List (Bytes × Nat)} (different : other ≠ name) :
    (Assoc.get name (Assoc.put other count incarnations)).getD 0 = (Assoc.get name incarnations).getD 0 := by
  rw [Assoc.get_put, if_neg (Ne.symm different)]

theorem work_less (h : RoleInv name store role) (allowed : (roles name).allowed role op)
    (idle : ¬ Grows name op) : Less name store (work op store).2 := by
  cases op with
  | init other =>
    have different : other ≠ name := idle
    refine ⟨?_, incarnation_put different, fun _ member _ => member, fun _ member _ => member⟩
    simp [work, Ne.symm different]
  | rename other =>
    have different : other ≠ name := idle
    refine ⟨?_, rfl, fun _ member _ => member, fun _ member _ => member⟩
    simp [work, Ne.symm different]
  | putCheckout other client_id =>
    have different : other ≠ name := idle
    refine ⟨Iff.rfl, rfl, fun checkout member same => ?_, fun _ member _ => member⟩
    rcases List.mem_cons.mp member with rfl | before
    · exact absurd same different
    · exact (List.mem_filter.mp before).1
  | forget other client_id | unlinkCheckout other client_id =>
    exact ⟨Iff.rfl, rfl, fun _ member _ => (List.mem_filter.mp member).1, fun _ member _ => member⟩
  | append epoch_seconds kind other client_id =>
    have different : other ≠ name := idle
    refine ⟨Iff.rfl, rfl, fun _ member _ => member, fun event member same => ?_⟩
    rcases Logs.mem_append member with rfl | before
    · exact absurd same different
    · exact before
  | openLog => exact ⟨Iff.rfl, rfl, fun _ member _ => member, fun _ member _ => Logs.mem_openLog.mp member⟩
  | linkArchive => exact ⟨Iff.rfl, rfl, fun _ member _ => member, fun _ member _ => Logs.mem_linkArchive.mp member⟩
  | unlinkLive => exact ⟨Iff.rfl, rfl, fun _ member _ => member, fun _ member _ => Logs.mem_unlinkLive member⟩
  | writeLog file retained | truncateLog file size =>
    obtain ⟨logs, noted, harmless⟩ := allowed
    obtain ⟨-, rfl⟩ := h.logs logs noted
    exact ⟨Iff.rfl, rfl, fun _ member _ => member, fun _ member _ =>
      Logs.edit_less (fun content there => (harmless content there).1) member⟩
  | rmdirProject other =>
    simp only [work]
    split
    · exact Less.refl store
    · exact ⟨Iff.rfl, rfl, fun _ member _ => member, fun _ member _ => member⟩
  | lockLifecycle | unlockLifecycle | lockMetadata | unlockMetadata | present | configure | validate | sync
  | listNames | makeDirectory | readLogs | listClients | readLog | syncMetadata =>
    exact ⟨Iff.rfl, rfl, fun _ member _ => member, fun _ member _ => member⟩

/-- A repository that was not found is not there. -/
theorem RoleInv.absent (h : RoleInv name store role) (found : role.found = some false) :
    name ∉ store.repositories := fun there => nomatch (h.found false found).2.mp there

theorem RoleInv.present (h : RoleInv name store role) (found : role.found = some true) :
    name ∈ store.repositories := (h.found true found).2.mpr rfl

theorem WatchInv.phase {phase : Phase} (h : WatchInv name watch)
    (same : phase = .existing ↔ watch.phase = .existing)
    (bare : phase = .clean ∨ phase = .removed → Bare name watch.store) :
    WatchInv name { watch with phase } :=
  ⟨h.there.trans same.symm, bare, h.own⟩

theorem init_inv {other : Bytes} (h : WatchInv name watch) (r : RoleInv name watch.store role)
    (allowed : (roles name).allowed role (.init other)) (meets : OpMeets name watch (.init other)) :
    WatchInv name { store := (work (.init other) watch.store).2, phase := watch.phase.next name (.init other) true } := by
  by_cases mine : other = name
  · subst mine
    have bare : Bare other watch.store := by
      rcases meets rfl with clean | removed | bare
      · exact h.bare (.inl clean)
      · exact h.bare (.inr removed)
      · exact bare
    have phase : watch.phase.next other (.init other) true = .existing := by simp [Phase.next]
    rw [phase]
    refine ⟨by simp [work], nofun, fun _ => ?_⟩
    exact Bare.own ⟨bare.checkouts, bare.events⟩
  · have phase : watch.phase.next name (.init other) true = watch.phase := by simp [Phase.next, mine]
    rw [phase]
    exact h.less (work_less r allowed mine)

theorem rename_inv {other : Bytes} (h : WatchInv name watch) (r : RoleInv name watch.store role)
    (allowed : (roles name).allowed role (.rename other)) :
    WatchInv name { store := (work (.rename other) watch.store).2, phase := watch.phase.next name (.rename other) true } := by
  by_cases mine : other = name
  · subst mine
    have gone : other ∉ (work (.rename other) watch.store).2.repositories := by simp [work]
    simp only [Phase.next, true_and]
    split
    · exact ⟨⟨fun there => absurd there gone, nofun⟩, nofun, fun there => absurd there gone⟩
    · rename_i other_phase
      refine ⟨⟨fun there => absurd there gone, fun existing => absurd existing other_phase⟩, fun cleaned => ?_,
        fun there => absurd there gone⟩
      have bare := h.bare cleaned
      exact ⟨bare.checkouts, bare.events⟩
  · have phase : watch.phase.next name (.rename other) true = watch.phase := by simp [Phase.next, mine]
    rw [phase]
    exact h.less (work_less r allowed mine)

theorem putCheckout_inv {other client_id : Bytes} (h : WatchInv name watch) (r : RoleInv name watch.store role)
    (allowed : (roles name).allowed role (.putCheckout other client_id)) :
    WatchInv name { watch with store := (work (.putCheckout other client_id) watch.store).2 } := by
  by_cases mine : other = name
  · subst mine
    have there := r.present (allowed.2 rfl)
    refine ⟨h.there, fun gone => ?_, fun _ => ⟨fun checkout member same => ?_, (h.own there).events⟩⟩
    · rw [h.there.mp there] at gone
      exact absurd gone nofun
    · rcases List.mem_cons.mp member with rfl | before
      · rfl
      · exact (h.own there).checkouts checkout (List.mem_filter.mp before).1 same
  · exact h.less (work_less r allowed mine)

theorem append_inv {epoch_seconds : UInt64} {kind other client_id : Bytes} (h : WatchInv name watch)
    (r : RoleInv name watch.store role)
    (allowed : (roles name).allowed role (.append epoch_seconds kind other client_id))
    (meets : OpMeets name watch (.append epoch_seconds kind other client_id)) :
    WatchInv name { store := (work (.append epoch_seconds kind other client_id) watch.store).2
                    phase := watch.phase.next name (.append epoch_seconds kind other client_id) true } := by
  by_cases mine : other = name
  · subst mine
    have own : other ∈ watch.store.repositories →
        Own other (work (.append epoch_seconds kind other client_id) watch.store).2 := fun there => by
      refine ⟨(h.own there).checkouts, fun event member same => ?_⟩
      rcases Logs.mem_append member with rfl | before
      · rfl
      · exact (h.own there).events event before same
    simp only [Phase.next, true_and]
    split
    · rename_i clean
      have absent : watch.phase ≠ .existing := by simp [clean]
      exact ⟨⟨fun there => absurd (h.there.mp there) absent, nofun⟩, nofun, own⟩
    · rename_i dirty
      exact ⟨h.there, fun gone => (gone.elim dirty (meets rfl)).elim, own⟩
  · have phase : watch.phase.next name (.append epoch_seconds kind other client_id) true = watch.phase := by
      simp [Phase.next, mine]
    rw [phase]
    exact h.less (work_less r allowed mine)

theorem syncMetadata_inv {other : Bytes} (h : WatchInv name watch) (r : RoleInv name watch.store role)
    (allowed : (roles name).allowed role (.syncMetadata other)) :
    WatchInv name { watch with phase := watch.phase.next name (.syncMetadata other) true } := by
  by_cases mine : other = name
  · obtain ⟨absent, unregistered, logs, noted, clear⟩ := allowed mine
    have bare : Bare name watch.store := ⟨(r.unregistered unregistered).2, (r.logs logs noted).2.symm ▸ clear⟩
    have gone : watch.phase ≠ .existing := fun existing => r.absent absent (h.there.mpr existing)
    refine h.phase ⟨fun same => ?_, fun existing => absurd existing gone⟩ fun _ => bare
    subst mine
    simp only [Phase.next, and_self, if_true] at same
    split at same
    · cases same
    · cases same
    · exact same
  · have phase : watch.phase.next name (.syncMetadata other) true = watch.phase := by simp [Phase.next, mine]
    rw [phase]
    exact h

theorem lockLifecycle_inv (h : WatchInv name watch) :
    WatchInv name { store := (work .lockLifecycle watch.store).2, phase := watch.phase.next name .lockLifecycle () } := by
  have less : Less name watch.store (work .lockLifecycle watch.store).2 :=
    ⟨Iff.rfl, rfl, fun _ member _ => member, fun _ member _ => member⟩
  refine (h.less less).phase ?_ fun cleaned => ?_
  · simp only [Phase.next]
    split
    · rename_i moved
      simp [moved]
    · exact Iff.rfl
  · simp only [Phase.next] at cleaned
    split at cleaned
    · exact absurd cleaned nofun
    · exact less.bare (h.bare cleaned)

theorem observe_inv (h : WatchInv name watch) (r : RoleInv name watch.store role)
    (allowed : (roles name).allowed role op) (meets : OpMeets name watch op) :
    WatchInv name (observe name fails op watch).2 := by
  unfold observe
  rcases @perform_cases watch.store fails β op with works | ⟨reply, failed, fails⟩
  · rw [works]
    cases op with
    | lockLifecycle => exact lockLifecycle_inv h
    | init other => exact init_inv h r allowed meets
    | rename other => exact rename_inv h r allowed
    | putCheckout other client_id => exact putCheckout_inv h r allowed
    | append epoch_seconds kind other client_id => exact append_inv h r allowed meets
    | syncMetadata other => exact syncMetadata_inv h r allowed
    | _ => exact h.less (work_less r allowed id)
  · rw [fails]
    show WatchInv name { watch with phase := watch.phase.next name op reply }
    rw [next_failed failed]
    exact h

/-- The notes after an operation that fails. -/
theorem failed_own {reply : β} (r : RoleInv name store role) (failed : failure op = some reply) :
    RoleInv name store ((roles name).after role op reply) := by
  have mapped : ∀ logs, (role.logs.map fun logs => logs) = some logs → role.metadata = true ∧ store.logs = logs := by
    intro logs noted
    rw [Option.map_id'] at noted
    exact r.logs logs noted
  cases op <;> cases failed
  case init other =>
    simp only [roles]
    split
    · exact ⟨nofun, r.unregistered, r.logs, r.archived⟩
    · exact r
  case rename other =>
    simp only [roles]
    split
    · exact ⟨r.found, r.unregistered, r.logs, r.archived⟩
    · exact r
  case putCheckout => exact ⟨r.found, nofun, r.logs, r.archived⟩
  case openLog | unlinkLive | linkArchive => exact ⟨r.found, r.unregistered, nofun, nofun⟩
  case append => exact ⟨r.found, r.unregistered, nofun, r.archived⟩
  case rmdirProject other =>
    simp only [roles, Bool.or_false]
    split
    · exact ⟨r.found, r.unregistered, r.logs, r.archived⟩
    · exact r
  case readLogs => exact ⟨r.found, r.unregistered, nofun, r.archived⟩
  case readLog | writeLog | truncateLog => exact ⟨r.found, r.unregistered, mapped, r.archived⟩
  all_goals exact r

/-- A log is edited as noted. -/
theorem RoleInv.edited {file : Nat} {f : List StateEvent → List StateEvent} (r : RoleInv name store role) :
    RoleInv name { store with logs := store.logs.edit file f }
      { role with logs := role.logs.map (·.edit file f) } := by
  refine ⟨r.found, r.unregistered, fun logs noted => ?_, r.archived⟩
  obtain ⟨before, held, rfl⟩ := Option.map_eq_some_iff.mp noted
  obtain ⟨metadata, same⟩ := r.logs before held
  exact ⟨metadata, congrArg (Logs.edit file f) same⟩

/-- A checkout of some project is gone. -/
theorem RoleInv.fewer {keep : Checkout → Bool} (r : RoleInv name store role) :
    RoleInv name { store with checkouts := store.checkouts.filter keep } role := by
  refine ⟨r.found, fun unregistered => ?_, r.logs, r.archived⟩
  obtain ⟨held, none⟩ := r.unregistered unregistered
  exact ⟨held, fun checkout member => none checkout (List.mem_filter.mp member).1⟩

/-- The notes after the operation. -/
theorem work_own (r : RoleInv name store role) (allowed : (roles name).allowed role op) :
    RoleInv name (work op store).2 ((roles name).after role op (work op store).1) := by
  cases op with
  | lockLifecycle | unlockLifecycle => exact ⟨nofun, r.unregistered, r.logs, r.archived⟩
  | lockMetadata | unlockMetadata => exact ⟨r.found, nofun, nofun, nofun⟩
  | present other =>
    simp only [roles, work]
    split
    · rename_i mine
      refine ⟨fun there same => ⟨allowed, ?_⟩, r.unregistered, r.logs, r.archived⟩
      rw [← Option.some.inj same, decide_eq_true_iff, mine]
    · exact r
  | init other =>
    by_cases mine : other = name
    · simp only [roles, if_pos mine]
      exact ⟨nofun, r.unregistered, r.logs, r.archived⟩
    · simp only [roles, if_neg mine]
      have same := (work_less r allowed mine).repositories
      exact ⟨fun there found => (r.found there found).imp_right same.trans, r.unregistered, r.logs, r.archived⟩
  | rename other =>
    by_cases mine : other = name
    · simp only [roles, if_pos mine]
      refine ⟨fun there found => ⟨allowed, ?_⟩, r.unregistered, r.logs, r.archived⟩
      rw [show there = false from (Option.some.inj found).symm]
      simp [work, mine]
    · simp only [roles, if_neg mine]
      have same := (work_less r allowed mine).repositories
      exact ⟨fun there found => (r.found there found).imp_right same.trans, r.unregistered, r.logs, r.archived⟩
  | putCheckout => exact ⟨r.found, nofun, r.logs, r.archived⟩
  | forget | unlinkCheckout => exact r.fewer
  | openLog => exact ⟨r.found, r.unregistered, nofun, nofun⟩
  | linkArchive =>
    refine ⟨r.found, r.unregistered, nofun, fun _ => ⟨allowed, fun file live => ?_⟩⟩
    exact List.mem_append_right _ (Option.mem_toList.mpr live)
  | unlinkLive => exact ⟨r.found, r.unregistered, nofun, nofun⟩
  | append =>
    refine ⟨r.found, r.unregistered, nofun, fun archived => ?_⟩
    simpa [work, roles] using r.archived archived
  | readLogs =>
    refine ⟨r.found, r.unregistered, fun logs noted => ⟨allowed, Option.some.inj noted⟩, r.archived⟩
  | readLog file =>
    refine ⟨r.found, r.unregistered, fun logs noted => ?_, r.archived⟩
    obtain ⟨before, held, rfl⟩ := Option.map_eq_some_iff.mp noted
    obtain ⟨metadata, same⟩ := r.logs before held
    refine ⟨metadata, ?_⟩
    show store.logs = store.logs.files[file]?.elim before fun content => before.edit file fun _ => content
    cases there : store.logs.files[file]? with
    | none => exact same
    | some content => exact same.trans (Logs.edit_same (same ▸ there)).symm
  | writeLog | truncateLog => exact r.edited
  | rmdirProject other =>
    simp only [roles, work]
    split
    · split
      · simp only [Bool.or_false]
        exact ⟨r.found, r.unregistered, r.logs, r.archived⟩
      · exact r
    · rename_i none
      split
      · rename_i mine
        refine ⟨r.found, fun _ => ⟨allowed, fun checkout member same => none ?_⟩, r.logs, r.archived⟩
        exact List.any_eq_true.mpr ⟨checkout, member, decide_eq_true (same.trans mine.symm)⟩
      · exact ⟨r.found, r.unregistered, r.logs, r.archived⟩
  | configure | validate | sync | listNames | makeDirectory | listClients | syncMetadata =>
    exact ⟨r.found, r.unregistered, r.logs, r.archived⟩

theorem observe_own (r : RoleInv name watch.store role) (allowed : (roles name).allowed role op) :
    RoleInv name (observe name fails op watch).2.store
      ((roles name).after role op (observe name fails op watch).1) := by
  unfold observe
  rcases @perform_cases watch.store fails β op with works | ⟨reply, failed, fails⟩
  · rw [works]
    exact work_own r allowed
  · rw [fails]
    exact failed_own r failed

/-- Without a lock, what it guards stays. -/
theorem work_guarded (r : RoleInv name store role) (allowed : (roles name).allowed role op) :
    (role.lifecycle = false → (work op store).2.repositories = store.repositories)
      ∧ (role.metadata = false →
          (work op store).2.checkouts = store.checkouts ∧ (work op store).2.logs = store.logs) := by
  have guarded : ∀ {b : Bool}, b = true → b = false → False := fun one two => by rw [one] at two; cases two
  cases op with
  | init other => exact ⟨fun free => (guarded allowed.1 free).elim, fun _ => ⟨rfl, rfl⟩⟩
  | rename other => exact ⟨fun free => (guarded allowed free).elim, fun _ => ⟨rfl, rfl⟩⟩
  | putCheckout other client_id | unlinkCheckout other client_id =>
    exact ⟨fun _ => rfl, fun free => (guarded allowed.1 free).elim⟩
  | forget | openLog | linkArchive | append => exact ⟨fun _ => rfl, fun free => (guarded allowed free).elim⟩
  | unlinkLive => exact ⟨fun _ => rfl, fun free => (guarded (r.archived allowed).1 free).elim⟩
  | writeLog file retained | truncateLog file size =>
    obtain ⟨logs, noted, -⟩ := allowed
    exact ⟨fun _ => rfl, fun free => (guarded (r.logs logs noted).1 free).elim⟩
  | rmdirProject other =>
    simp only [work]
    split <;> exact ⟨fun _ => rfl, fun _ => ⟨rfl, rfl⟩⟩
  | lockLifecycle | unlockLifecycle | lockMetadata | unlockMetadata | present | configure | validate | sync
  | listNames | makeDirectory | readLogs | listClients | readLog | syncMetadata =>
    exact ⟨fun _ => rfl, fun _ => ⟨rfl, rfl⟩⟩

/-- The notes of a process that holds no lock in common with the one that acts. -/
theorem observe_other {other : Role} (r : RoleInv name watch.store role)
    (allowed : (roles name).allowed role op) (o : RoleInv name watch.store other)
    (lifecycle : other.lifecycle = true → role.lifecycle = false)
    (metadata : other.metadata = true → role.metadata = false) :
    RoleInv name (observe name fails op watch).2.store other := by
  unfold observe
  rcases @perform_cases watch.store fails β op with works | ⟨reply, failed, fails⟩
  · rw [works]
    obtain ⟨repositories, guarded⟩ := work_guarded r allowed
    refine ⟨fun there found => ?_, fun unregistered => ?_, fun logs noted => ?_, fun archived => ?_⟩
    · obtain ⟨held, same⟩ := o.found there found
      refine ⟨held, ?_⟩
      show name ∈ (work op watch.store).2.repositories ↔ _
      rw [repositories (lifecycle held)]
      exact same
    · obtain ⟨held, none⟩ := o.unregistered unregistered
      refine ⟨held, ?_⟩
      show ∀ checkout ∈ (work op watch.store).2.checkouts, _
      rw [(guarded (metadata held)).1]
      exact none
    · obtain ⟨held, same⟩ := o.logs logs noted
      exact ⟨held, (guarded (metadata held)).2.trans same⟩
    · obtain ⟨held, second⟩ := o.archived archived
      refine ⟨held, ?_⟩
      show ∀ file, (work op watch.store).2.logs.live = some file → file ∈ (work op watch.store).2.logs.archives
      rw [(guarded (metadata held)).2]
      exact second
  · rw [fails]
    exact o

theorem Spared.refl (store : Store) : Spared name store store :=
  ⟨fun _ member _ => member, fun _ member _ => member⟩

/-- No operation but a forget takes metadata of a project whose repository exists. -/
theorem work_spared (r : RoleInv name store role) (allowed : (roles name).allowed role op)
    (there : name ∈ store.repositories) (own : Own name store) (keeps : ¬ IsForget name op) :
    Spared name store (work op store).2 := by
  have found : role.found ≠ some false := fun gone => r.absent gone there
  cases op with
  | putCheckout other client_id =>
    refine ⟨fun checkout member same => ?_, fun _ member _ => member⟩
    by_cases replaced : checkout.project_name = other ∧ checkout.client_id = client_id
    · -- The record that replaces it is of the same creation.
      have incarnation := own.checkouts checkout member same
      refine List.mem_cons.mpr (.inl ?_)
      cases checkout
      obtain ⟨rfl, rfl⟩ := replaced
      subst same
      exact congrArg (Checkout.mk _ _) incarnation
    · refine List.mem_cons_of_mem _ (List.mem_filter.mpr ⟨member, decide_eq_true ?_⟩)
      exact not_and_or.mp replaced
  | forget other client_id =>
    refine ⟨fun checkout member same => List.mem_filter.mpr ⟨member, decide_eq_true (.inl ?_)⟩,
      fun _ member _ => member⟩
    exact fun mine => keeps (mine.symm.trans same)
  | unlinkCheckout other client_id =>
    refine ⟨fun checkout member same => List.mem_filter.mpr ⟨member, decide_eq_true (.inl ?_)⟩,
      fun _ member _ => member⟩
    exact fun mine => found (allowed.2 (mine.symm.trans same))
  | openLog => exact ⟨fun _ member _ => member, fun _ member _ => Logs.mem_openLog.mpr member⟩
  | linkArchive => exact ⟨fun _ member _ => member, fun _ member _ => Logs.mem_linkArchive.mpr member⟩
  | unlinkLive =>
    exact ⟨fun _ member _ => member, fun _ member _ => Logs.unlinkLive_keeps (r.archived allowed).2 member⟩
  | append => exact ⟨fun _ member _ => member, fun _ member _ => Logs.append_keeps member⟩
  | writeLog file retained | truncateLog file size =>
    obtain ⟨logs, noted, harmless⟩ := allowed
    obtain ⟨-, rfl⟩ := r.logs logs noted
    exact ⟨fun _ member _ => member, fun event member same => Logs.edit_keeps
      (fun content there present => (harmless content there).2 found event present same) member⟩
  | rmdirProject other =>
    simp only [work]
    split <;> exact ⟨fun _ member _ => member, fun _ member _ => member⟩
  | lockLifecycle | unlockLifecycle | lockMetadata | unlockMetadata | present | init | configure | validate
  | rename | sync | listNames | makeDirectory | readLogs | listClients | readLog | syncMetadata =>
    exact ⟨fun _ member _ => member, fun _ member _ => member⟩

theorem observe_spared (h : WatchInv name watch) (r : RoleInv name watch.store role)
    (allowed : (roles name).allowed role op) (there : name ∈ watch.store.repositories)
    (keeps : ¬ IsForget name op) : Spared name watch.store (observe name fails op watch).2.store := by
  unfold observe
  rcases @perform_cases watch.store fails β op with works | ⟨reply, failed, fails⟩
  · rw [works]
    exact work_spared r allowed there (h.own there) keeps
  · rw [fails]
    exact Spared.refl watch.store

end
end CkGit.Projects
