import CkGit.Pages.Copying

/-!
Every run that meets the condition keeps its live site.
-/
namespace CkGit.Pages
open CkGit.Base CkGit.Ci

/-- The pointer a publish writes is read back. -/
theorem readCurrent_written {id : Bytes} (valid : isValidCiId id = true) :
    readCurrent (some (id ++ ascii "\n")) = some id := by
  have parts := valid
  simp only [isValidCiId, Bool.and_eq_true, decide_eq_true_eq] at parts
  obtain ⟨⟨filled, few⟩, idle⟩ := parts
  have ends : ((id ++ ascii "\n").reverse.dropWhile isLineEnd).reverse = id := by
    have newline : isLineEnd '\n'.toUInt8 = true := by decide
    rw [List.reverse_append, show (ascii "\n").reverse = ['\n'.toUInt8] from by decide,
      List.singleton_append, List.dropWhile_cons_of_pos newline]
    cases back : id.reverse with
    | nil => rw [List.reverse_eq_nil_iff.mp back]; rfl
    | cons last front =>
      have member : last ∈ id := List.mem_reverse.mp (by rw [back]; exact List.mem_cons_self)
      have letter := List.all_eq_true.mp idle last member
      have plain : ¬ isLineEnd last = true := by
        intro line
        simp only [isLineEnd, Bool.or_eq_true, beq_iff_eq] at line
        rcases line with rfl | rfl <;> exact absurd letter (by decide)
      rw [List.dropWhile_cons_of_neg plain, ← back, List.reverse_reverse]
  have size : ¬ ((id ++ ascii "\n").length = 0 ∨ (id ++ ascii "\n").length > 128) := by
    have one : (ascii "\n").length = 1 := by decide
    have cap : kMaximumCiIdBytes ≤ 127 := by decide
    rw [List.length_append, one]
    omega
  simp only [readCurrent, size, if_false, ends, valid, if_true]

/-- What is pruned has as many newer versions as are kept. -/
theorem pruned_spares {publish : CiPublish} {ids : List Bytes} (once : ids.Nodup) {id : Bytes}
    (member : id ∈ pruned publish ids) :
    publish.keep_versions ≤ (ids.filter (id < ·)).length := by
  have : Std.Total (α := Bytes) (· ≥ ·) := ⟨fun a b => List.le_total b a⟩
  have : IsTrans Bytes (· ≥ ·) := ⟨fun _ _ _ first second => List.le_trans second first⟩
  have sorted : (ids.insertionSort (· ≥ ·)).Pairwise fun a b => b ≤ a := List.pairwise_insertionSort _ ids
  have permuted := List.perm_insertionSort (· ≥ ·) ids
  have distinct : (ids.insertionSort (· ≥ ·)).Nodup := permuted.nodup_iff.mpr once
  have beyond : id ∈ (ids.insertionSort (· ≥ ·)).drop publish.keep_versions :=
    (List.mem_filter.mp member).1
  rw [← (permuted.filter _).length_eq]
  generalize ids.insertionSort (· ≥ ·) = order at *
  have newer : ∀ other ∈ order.take publish.keep_versions, id < other := by
    intro other early
    rw [← List.take_append_drop publish.keep_versions order] at sorted distinct
    refine Std.lt_of_le_of_ne ((List.pairwise_append.mp sorted).2.2 other early id beyond) ?_
    rintro rfl
    exact (List.nodup_append.mp distinct).2.2 _ early _ beyond rfl
  have few : publish.keep_versions ≤ order.length := by
    by_contra short
    rw [List.drop_of_length_le (by omega)] at beyond
    cases beyond
  calc publish.keep_versions
      = (order.take publish.keep_versions).length := by rw [List.length_take, Nat.min_eq_left few]
    _ = ((order.take publish.keep_versions).filter (id < ·)).length := by
        rw [List.filter_eq_self.mpr fun other early => decide_eq_true (newer other early)]
    _ ≤ (order.filter (id < ·)).length :=
        ((List.take_sublist _ _).filter _).length_le

structure Inv (host : Host) : Prop where
  whole : Whole host.store
  /-- A version in the making is as its publish made it. -/
  built : ∀ process ∈ host.processes, ∀ id tree, building process = some (id, tree) →
    host.store.version id = some tree
  clean : ∀ process ∈ host.processes, process.note.spoiled = false
  /-- A publish that moved the pointer makes nothing more. -/
  settled : ∀ process ∈ host.processes, process.note.moved = true → process.note.built = none
  listed : ∀ process ∈ host.processes, process.note.listed.Nodup
  follows : ∀ process ∈ host.processes, roles.Follows process.rest process.note fun _ _ => True

section
variable {host : Host} {index : Nat} {role : Role}

theorem building_call {β : Type} (op : PagesOp β) (next : β → Script PagesOp Unit) :
    building ⟨role, .call op next⟩ = role.built.map (role.publish.run_id, ·) := rfl

/-- What is being built is the publish's own. -/
theorem building_own {process : Process PagesOp Role} {id : Bytes} {tree : Tree}
    (making : building process = some (id, tree)) :
    process.note.built = some tree ∧ id = process.note.publish.run_id := by
  unfold building at making
  split at making
  · obtain ⟨_, made, same⟩ := Option.map_eq_some_iff.mp making
    obtain ⟨rfl, rfl⟩ := Prod.mk.inj same
    exact ⟨made, rfl⟩
  · cases making

theorem Inv.begin (h : Inv host) {script : Script PagesOp Unit} (bare : role.built = none)
    (clean : role.spoiled = false) (unlisted : role.listed = [])
    (follows : roles.Follows script role fun _ _ => True) : Inv (host.start ⟨role, script⟩) := by
  have known : ∀ {process}, process ∈ host.processes ++ [⟨role, script⟩] →
      process ∈ host.processes ∨ process = ⟨role, script⟩ := fun member => by simpa using member
  refine ⟨h.whole, fun process member => ?_, fun process member => ?_, fun process member => ?_,
    fun process member => ?_, fun process member => ?_⟩ <;> rcases known member with old | rfl
  · exact h.built process old
  · intro id tree making
    have made := (building_own making).1
    rw [bare] at made
    cases made
  · exact h.clean process old
  · exact clean
  · exact h.settled process old
  · exact fun _ => bare
  · exact h.listed process old
  · rw [unlisted]
    exact List.nodup_nil
  · exact h.follows process old
  · exact follows

theorem Inv.crash (h : Inv host) : Inv (host.crash index) :=
  ⟨h.whole, fun process member => h.built process (List.mem_of_mem_eraseIdx member),
    fun process member => h.clean process (List.mem_of_mem_eraseIdx member),
    fun process member => h.settled process (List.mem_of_mem_eraseIdx member),
    fun process member => h.listed process (List.mem_of_mem_eraseIdx member),
    fun process member => h.follows process (List.mem_of_mem_eraseIdx member)⟩

/-- One process goes on. -/
theorem Inv.advanced (h : Inv host) {store : Store} {process : Process PagesOp Role} (whole : Whole store)
    (others : ∀ other there, other ≠ index → host.processes[other]? = some there → ∀ id tree,
      building there = some (id, tree) → store.version id = some tree)
    (own : ∀ tree, process.note.built = some tree →
      store.version process.note.publish.run_id = some tree)
    (clean : process.note.spoiled = false)
    (settled : process.note.moved = true → process.note.built = none)
    (listed : process.note.listed.Nodup)
    (follows : roles.Follows process.rest process.note fun _ _ => True) :
    Inv { store, processes := host.processes.set index process } := by
  have known : ∀ {other}, other ∈ host.processes.set index process →
      other ∈ host.processes ∨ other = process := fun member => List.mem_or_eq_of_mem_set member
  refine ⟨whole, fun other member id tree making => ?_, fun other member => ?_, fun other member => ?_,
    fun other member => ?_, fun other member => ?_⟩
  · obtain ⟨place, there⟩ := List.mem_iff_getElem?.mp member
    by_cases same : index = place
    · subst same
      have long := (List.getElem?_eq_some_iff.mp there).1
      rw [List.length_set] at long
      rw [List.getElem?_set_self long] at there
      obtain rfl := Option.some.inj there
      obtain ⟨made, rfl⟩ := building_own making
      exact own tree made
    · rw [List.getElem?_set_ne same] at there
      exact others place other (Ne.symm same) there id tree making
  · rcases known member with old | rfl
    · exact h.clean other old
    · exact clean
  · rcases known member with old | rfl
    · exact h.settled other old
    · exact settled
  · rcases known member with old | rfl
    · exact h.listed other old
    · exact listed
  · rcases known member with old | rfl
    · exact h.follows other old
    · exact follows

/-- The version of another id is changed. -/
theorem whole_setVersion {store : Store} (whole : Whole store) {id : Bytes} (unused : store.live ≠ some id)
    (version : Option Tree) : Whole (store.setVersion id version) := by
  intro current live
  obtain ⟨tree, there, copies⟩ := whole current live
  refine ⟨tree, ?_, copies⟩
  rw [Store.version_setVersion, if_neg, there]
  rintro rfl
  exact unused live

/-- An operation that leaves the files and what was built alone. -/
theorem Inv.quiet (h : Inv host) {β : Type} {op : PagesOp β} {next : β → Script PagesOp Unit} {reply : β}
    (running : host.processes[index]? = some ⟨role, .call op next⟩)
    (clean : (roles.after role op reply).spoiled = false)
    (same : (noted role op reply).built = role.built ∧ (noted role op reply).publish = role.publish
      ∧ (noted role op reply).moved = role.moved)
    (listed : (noted role op reply).listed.Nodup)
    (follows : roles.Follows (next reply) (roles.after role op reply) fun _ _ => True) :
    Inv { store := host.store,
          processes := host.processes.set index ⟨roles.after role op reply, next reply⟩ } := by
  have member := List.mem_of_getElem? running
  refine h.advanced h.whole (fun _ there _ found => h.built there (List.mem_of_getElem? found)) ?_ clean ?_
    listed follows
  · intro tree made
    refine h.built _ member _ tree ?_
    rw [building_call, show role.built = some tree from same.1.symm.trans made]
    exact congrArg (fun publish => some (CiPublish.run_id publish, tree)) same.2.1.symm
  · intro moved
    exact same.1.trans (h.settled _ member (same.2.2.symm.trans moved))

/-- What the other publishes build is there still when a version that none of them builds is set. -/
theorem Inv.others_built (h : Inv host) {id : Bytes} (unused : Unused host index id) (version : Option Tree) :
    ∀ other there, other ≠ index → host.processes[other]? = some there → ∀ of tree,
      building there = some (of, tree) → (host.store.setVersion id version).version of = some tree := by
  intro other there different found of tree making
  rw [Store.version_setVersion, if_neg]
  · exact h.built there (List.mem_of_getElem? found) of tree making
  · rintro rfl
    exact unused.2 other there different found tree making

/-- A change is made of a version that no other publish is building. -/
theorem Inv.change (h : Inv host) {id : Bytes} {edit : Edit} {next : Bool → Script PagesOp Unit}
    (running : host.processes[index]? = some ⟨role, .call (.change id edit) next⟩)
    (unused : Unused host index id) {version : Option Tree}
    (applies : edit.apply (host.store.version id) = some version)
    (allowed : roles.allowed role (.change id edit))
    (clean : (roles.after role (.change id edit) true).spoiled = false)
    (follows : roles.Follows (next true) (roles.after role (.change id edit) true) fun _ _ => True) :
    Inv { store := host.store.setVersion id version,
          processes := host.processes.set index ⟨roles.after role (.change id edit) true, next true⟩ } := by
  have member := List.mem_of_getElem? running
  have once : role.listed.Nodup := h.listed _ member
  have bare : role.moved = true → role.built = none := h.settled _ member
  have same := @change_same role id edit true
  refine h.advanced (whole_setVersion h.whole unused.1 version) (h.others_built unused version) ?_ clean ?_ once follows
  · intro tree made
    cases before : role.built with
    | none =>
      simp only [roles, noted, if_true, before, Option.bind_none] at made
      cases made
    | some old =>
      have unmoved : role.moved = false := by
        by_contra moved
        rw [bare (by simpa using moved)] at before
        cases before
      have own : id = role.publish.run_id := by
        simp only [roles, unmoved, Bool.false_eq_true, if_false] at allowed
        exact allowed
      have there : host.store.version id = some old := by
        refine h.built _ member id old ?_
        rw [building_call, before, own]
        rfl
      rw [there] at applies
      simp only [roles, noted, if_true, before, Option.bind_some, applies, Option.getD_some] at made
      rw [same.publish, Store.version_setVersion, if_pos own.symm]
      exact made
  · intro moved
    rw [same.moved] at moved
    simp only [roles, noted, if_true, bare moved, Option.bind_none]

theorem Inv.made (h : Inv host) {id : Bytes} {next : Made → Script PagesOp Unit}
    (running : host.processes[index]? = some ⟨role, .call (.makeVersion id) next⟩)
    (unused : Unused host index id) (allowed : roles.allowed role (.makeVersion id))
    (clean : (roles.after role (.makeVersion id) .created).spoiled = false)
    (follows : roles.Follows (next .created) (roles.after role (.makeVersion id) .created) fun _ _ => True) :
    Inv { store := host.store.setVersion id (some []),
          processes := host.processes.set index
            ⟨roles.after role (.makeVersion id) .created, next .created⟩ } := by
  have member := List.mem_of_getElem? running
  have once : role.listed.Nodup := h.listed _ member
  refine h.advanced (whole_setVersion h.whole unused.1 (some [])) (h.others_built unused (some [])) ?_ clean ?_ once
    follows
  · intro tree made
    obtain rfl : [] = tree := Option.some.inj made
    exact (Store.version_setVersion _ _ _ _).trans (if_pos allowed.1.symm)
  · intro moved
    exact absurd ((show role.moved = true from moved).symm.trans allowed.2) nofun

/-- The pointer moves over a complete version. -/
theorem Inv.rename (h : Inv host) {publish : CiPublish} {content : Bytes}
    {next : Bool → Script PagesOp Unit}
    (running : host.processes[index]? = some ⟨role, .call (.rename publish content) next⟩)
    (allowed : roles.allowed role (.rename publish content))
    (clean : (roles.after role (.rename publish content) true).spoiled = false)
    (follows : roles.Follows (next true) (roles.after role (.rename publish content) true) fun _ _ => True) :
    Inv { store := { host.store with pointer := some content, site := siteOf publish.entries },
          processes := host.processes.set index
            ⟨roles.after role (.rename publish content) true, next true⟩ } := by
  have member := List.mem_of_getElem? running
  have once : role.listed.Nodup := h.listed _ member
  obtain ⟨rfl, -, valid, -, ready⟩ := allowed
  obtain ⟨rfl, tree, built, copies⟩ := ready (after_spoiled clean).1
  have there : host.store.version role.publish.run_id = some tree := by
    refine h.built _ member _ tree ?_
    rw [building_call, built]
    rfl
  refine h.advanced ?_ (fun _ other _ found => h.built other (List.mem_of_getElem? found)) nofun clean
    (fun _ => rfl) once follows
  intro id live
  obtain rfl : role.publish.run_id = id := Option.some.inj ((readCurrent_written valid).symm.trans live)
  exact ⟨tree, there, copies⟩

theorem perform_change_store {fault : Fault} {id : Bytes} {edit : Edit} (store : Store) :
    ((perform fault (.change id edit) store).1 = false
        ∧ (perform fault (.change id edit) store).2 = store)
      ∨ ∃ version, edit.apply (store.version id) = some version
        ∧ (perform fault (.change id edit) store).1 = true
        ∧ (perform fault (.change id edit) store).2 = store.setVersion id version := by
  cases applies : edit.apply (store.version id) with
  | none => exact .inl (by simp [perform, applies])
  | some version =>
    cases fault with
    | none => exact .inr ⟨version, rfl, by simp [perform, applies]⟩
    | fails | throws => exact .inl (by simp [perform, applies])

theorem perform_makeVersion_store {fault : Fault} {id : Bytes} (store : Store) :
    ((perform fault (.makeVersion id) store).1 ≠ .created
        ∧ (perform fault (.makeVersion id) store).2 = store)
      ∨ ((perform fault (.makeVersion id) store).1 = .created
        ∧ (perform fault (.makeVersion id) store).2 = store.setVersion id (some [])) := by
  cases fault with
  | none => cases there : store.version id <;> simp [perform, there]
  | fails | throws => exact .inl (by simp [perform])

theorem perform_rename_store {fault : Fault} {publish : CiPublish} {content : Bytes} (store : Store) :
    ((perform fault (.rename publish content) store).1 = false
        ∧ (perform fault (.rename publish content) store).2 = store)
      ∨ (fault = .none ∧ (perform fault (.rename publish content) store).1 = true
        ∧ (perform fault (.rename publish content) store).2
          = { store with pointer := some content, site := siteOf publish.entries }) := by
  cases fault with
  | none => exact .inr ⟨rfl, rfl, rfl⟩
  | fails | throws => exact .inl ⟨rfl, rfl⟩

theorem Inv.advance (h : Inv host) {fault : Fault} (meets : Meets host (.advance index fault)) :
    Inv (host.advance roles (perform fault) index) := by
  unfold Interleaved.advance
  split
  case h_2 => exact h
  case h_1 role β op next running =>
    have member := List.mem_of_getElem? running
    obtain ⟨allowed, continues⟩ := h.follows _ member
    obtain ⟨op_meets, unspoiled⟩ := Interleaved.nextMeets_iff.mp meets role β op next running
    have clean : (roles.after role op (perform fault op host.store).1).spoiled = false := by
      show (role.spoiled || _) = false
      rw [h.clean _ member, unspoiled]
      rfl
    have follows := continues (perform fault op host.store).1
    have listed : role.listed.Nodup := h.listed _ member
    cases op with
    | change id edit =>
      obtain ⟨failed, same⟩ | ⟨version, applies, worked, changed⟩ :=
        @perform_change_store fault id edit host.store
      · simp only [same]
        exact h.quiet running clean (by rw [failed]; exact ⟨rfl, rfl, rfl⟩) (by rw [failed]; exact listed)
          follows
      · simp only [changed]
        rw [worked] at clean follows ⊢
        exact h.change running op_meets applies allowed clean follows
    | makeVersion id =>
      obtain ⟨failed, same⟩ | ⟨made, changed⟩ := @perform_makeVersion_store fault id host.store
      · simp only [same]
        have still : noted role (.makeVersion id) (perform fault (.makeVersion id) host.store).1 = role :=
          if_neg failed
        exact h.quiet running clean (by rw [still]; exact ⟨rfl, rfl, rfl⟩) (by rw [still]; exact listed) follows
      · simp only [changed]
        rw [made] at clean follows ⊢
        exact h.made running op_meets allowed clean follows
    | rename publish content =>
      obtain ⟨failed, same⟩ | ⟨-, worked, changed⟩ :=
        @perform_rename_store fault publish content host.store
      · simp only [same]
        exact h.quiet running clean (by rw [failed]; exact ⟨rfl, rfl, rfl⟩) (by rw [failed]; exact listed)
          follows
      · simp only [changed]
        rw [worked] at clean follows ⊢
        exact h.rename running allowed clean follows
    | listVersions =>
      have unchanged : (perform fault .listVersions host.store).2 = host.store := by cases fault <;> rfl
      simp only [unchanged]
      refine h.quiet running clean ⟨rfl, rfl, rfl⟩ ?_ follows
      refine List.Nodup.filter _ ?_
      cases fault with
      | none => exact host.store.once
      | fails | throws => exact List.nodup_nil
    | walk entries =>
      refine h.quiet running clean ?_ ?_ follows
      all_goals cases fault
      all_goals first | exact ⟨rfl, rfl, rfl⟩ | exact listed
    | createVersions | list | increment | relative | symlinkStatus | fileSize | readFile | stage | writeStaging
    | readPointer | report =>
      exact h.quiet running clean ⟨rfl, rfl, rfl⟩ listed follows

theorem Inv.step {move : Move} (h : Inv host) (meets : Meets host move) : Inv (step host move) := by
  cases move with
  | publish publish => exact h.begin rfl rfl rfl (publishSite_follows ⟨rfl, rfl, nofun⟩)
  | commit publish => exact h.begin rfl rfl rfl commitSite_follows
  | advance index fault => exact h.advance meets
  | crash index => exact h.crash

theorem store_advance {β : Type} {op : PagesOp β} {next : β → Script PagesOp Unit} {fault : Fault}
    (running : host.processes[index]? = some ⟨role, .call op next⟩) :
    (step host (.advance index fault)).store = (perform fault op host.store).2 := by
  simp only [step, Interleaved.advance, running]

def isRename {β : Type} (op : PagesOp β) : Bool :=
  match op with
  | .rename _ _ => true
  | _ => false

/-- An operation other than the pointer's rename leaves what is live. -/
theorem perform_live {β : Type} {op : PagesOp β} {fault : Fault} (store : Store)
    (meets : OpMeets { host with store } index role op)
    (other : fault = .none → isRename op = false) :
    (perform fault op store).2.live = store.live
      ∧ ∀ id, store.live = some id → (perform fault op store).2.version id = store.version id := by
  have spared : ∀ {id : Bytes} (version : Option Tree), store.live ≠ some id →
      (store.setVersion id version).live = store.live
        ∧ ∀ current, store.live = some current →
          (store.setVersion id version).version current = store.version current := by
    intro id version unused
    refine ⟨rfl, fun current live => ?_⟩
    rw [Store.version_setVersion, if_neg]
    rintro rfl
    exact unused live
  cases op with
  | change id edit =>
    obtain ⟨-, same⟩ | ⟨version, -, -, changed⟩ := @perform_change_store fault id edit store
    · rw [same]
      exact ⟨rfl, fun _ _ => rfl⟩
    · rw [changed]
      exact spared version meets.1
  | makeVersion id =>
    obtain ⟨-, same⟩ | ⟨-, changed⟩ := @perform_makeVersion_store fault id store
    · rw [same]
      exact ⟨rfl, fun _ _ => rfl⟩
    · rw [changed]
      exact spared (some []) meets.1
  | rename publish content =>
    obtain ⟨-, same⟩ | ⟨works, -, -⟩ := @perform_rename_store fault publish content store
    · rw [same]
      exact ⟨rfl, fun _ _ => rfl⟩
    · cases other works
  | listVersions => cases fault <;> exact ⟨rfl, fun _ _ => rfl⟩
  | createVersions | list | walk | increment | relative | symlinkStatus | fileSize | readFile | stage | writeStaging
  | readPointer | report => exact ⟨rfl, fun _ _ => rfl⟩

theorem step_live {move : Move} (meets : Meets host move) (still : ¬ Renames host move) :
    (step host move).store.live = host.store.live
      ∧ ∀ id, host.store.live = some id → (step host move).store.version id = host.store.version id := by
  cases move with
  | publish | commit | crash => exact ⟨rfl, fun _ _ => rfl⟩
  | advance index fault =>
    match found : host.processes[index]? with
    | some ⟨role, .call op next⟩ =>
      rw [store_advance found]
      refine perform_live host.store (Interleaved.nextMeets_iff.mp meets role _ op next found).1 fun works => ?_
      by_contra renames
      cases op with
      | rename publish content => exact still ⟨index, role, publish, content, next, works ▸ rfl, found⟩
      | _ => exact renames rfl
    | some ⟨role, .done a⟩ =>
      have same : (step host (.advance index fault)).store = host.store := by
        simp only [step, Interleaved.advance, found]
      rw [same]
      exact ⟨rfl, fun _ _ => rfl⟩
    | none =>
      have same : (step host (.advance index fault)).store = host.store := by
        simp only [step, Interleaved.advance, found]
      rw [same]
      exact ⟨rfl, fun _ _ => rfl⟩

theorem Inv.steady {move : Move} (h : Inv host) (meets : Meets host move) : Steady host move := by
  refine ⟨step_live meets, ?_, ?_⟩
  · rintro index fault role id edit next rfl running moved
    have member := List.mem_of_getElem? running
    have pruning : id ∈ pruned role.publish role.listed := by
      have allowed := (h.follows _ member).1
      simp only [roles, moved, if_true] at allowed
      exact allowed
    exact ⟨(Interleaved.nextMeets_iff.mp meets role _ _ next running).1.1, pruned_spares (h.listed _ member) pruning⟩
  · rintro index fault process rfl running commits before after live moved
    by_cases renames : Renames host (.advance index fault)
    case neg =>
      rw [(step_live meets renames).1, live] at moved
      exact Option.some.inj moved ▸ List.le_refl before
    case pos =>
      obtain ⟨_, role, publish, content, next, same, calls⟩ := renames
      obtain ⟨rfl, rfl⟩ := Move.advance.inj same
      obtain rfl := Option.some.inj (running.symm.trans calls)
      have member := List.mem_of_getElem? calls
      obtain ⟨own, -, valid, cleared, ready⟩ : roles.allowed role (.rename publish content) :=
        (h.follows _ member).1
      obtain ⟨rfl, -⟩ := ready (h.clean _ member)
      subst own
      rw [store_advance calls] at moved
      obtain rfl : role.publish.run_id = after := Option.some.inj ((readCurrent_written valid).symm.trans moved)
      rcases (Interleaved.nextMeets_iff.mp meets role _ _ next calls).1 commits with unmoved | older
      · exact cleared commits before (unmoved.symm.trans live)
      · exact older before live

theorem Inv.sound (h : Inv host) : Sound host := by
  refine ⟨h.whole, fun process member next reports => ?_⟩
  obtain ⟨role, rest⟩ := process
  obtain rfl : rest = _ := reports
  exact (h.follows _ member).1 (h.clean _ member) rfl

theorem inv_run {moves : List Move} (h : Inv host) (meets : RunMeets host moves) :
    Inv (runFrom host moves) := by
  induction moves generalizing host with
  | nil => exact h
  | cons move rest ih => exact ih (h.step meets.1) meets.2

theorem RunMeets.take {moves : List Move} (meets : RunMeets host moves) (count : Nat) :
    RunMeets host (moves.take count)
      ∧ ∀ move, moves[count]? = some move → Meets (runFrom host (moves.take count)) move := by
  induction moves generalizing host count with
  | nil => exact ⟨by simpa using meets, fun _ found => by simp at found⟩
  | cons move rest ih =>
    cases count with
    | zero => exact ⟨trivial, fun _ found => Option.some.inj found ▸ meets.1⟩
    | succ count =>
      obtain ⟨earlier, next⟩ := ih meets.2 count
      exact ⟨⟨meets.1, earlier⟩, next⟩

end

/-- A run that meets the condition keeps the live site whole and never goes back. -/
theorem published_of_meets {store : Store} (whole : Whole store) {moves : List Move}
    (meets : RunMeets { store, processes := [] } moves) : Kept { store, processes := [] } moves := by
  have start : Inv { store, processes := [] } := ⟨whole, nofun, nofun, nofun, nofun, nofun⟩
  intro count
  obtain ⟨earlier, next⟩ := meets.take count
  exact ⟨(inv_run start earlier).sound, fun move found => (inv_run start earlier).steady (next move found)⟩

def pageSource : Source where
  entries := [⟨[ascii "index.html"], .regular ⟨[], ascii "x"⟩⟩]
  distinct := by decide
  rooted := by
    intro before entry after split
    cases before with
    | nil =>
      obtain ⟨rfl, -⟩ := List.cons.inj split
      refine ⟨by decide, fun parent start different nonempty => ?_⟩
      have two : parent = [] ∨ parent = [ascii "index.html"] := by simpa using start
      exact absurd two (not_or.mpr ⟨nonempty, different⟩)
    | cons first rest => cases rest <;> cases split

def pagePublish : CiPublish :=
  { project := ascii "p", run_id := ascii "1", source := some pageSource, keep_versions := 1 }

/-- The site is live. -/
def pageStore : Store where
  versions := [(ascii "1", pageSource.site)]
  once := by decide
  pointer := some (ascii "1\n")
  site := pageSource.site

private theorem whole_page : Whole pageStore := by
  intro id live
  obtain rfl : ascii "1" = id := Option.some.inj live
  exact ⟨pageSource.site, rfl, fun _ => rfl⟩

/-- A newer run is published and the live version pruned after it, an older one is refused, and a
third publish fails at its file and takes its version down. -/
def newerMoves : List Move :=
  [.commit { pagePublish with run_id := ascii "2" }] ++ List.replicate 21 (.advance 0 .none)
    ++ [.crash 0, .commit { pagePublish with run_id := ascii "0" }, .advance 0 .none, .advance 0 .none, .crash 0,
      .publish { pagePublish with run_id := ascii "3" }]
    ++ List.replicate 9 (.advance 0 .none) ++ [.advance 0 .fails] ++ List.replicate 4 (.advance 0 .none)

/-- A retry of the live run, up to the removal of the page. -/
def retryMoves : List Move :=
  [.commit pagePublish, .advance 0 .none, .advance 0 .none, .advance 0 .none, .advance 0 .none]

theorem published_newer : RunMeets { store := pageStore, processes := [] } newerMoves
    ∧ Kept { store := pageStore, processes := [] } newerMoves
    ∧ (runFrom { store := pageStore, processes := [] } newerMoves).store.live = some (ascii "2")
    ∧ (runFrom { store := pageStore, processes := [] } newerMoves).store.version (ascii "1") = none := by
  have meets : RunMeets { store := pageStore, processes := [] } newerMoves := by decide +kernel
  exact ⟨meets, published_of_meets whole_page meets, by decide +kernel, by decide +kernel⟩

/-- A retry takes the live page away before it is there again. -/
theorem not_kept_retry : ¬ ∀ store moves, Whole store → Kept { store, processes := [] } moves := by
  intro all
  obtain ⟨tree, there, copies⟩ := ((all pageStore retryMoves whole_page) 5).1.whole (ascii "1") (by decide)
  have page := copies [ascii "index.html"]
  have gone : (runFrom { store := pageStore, processes := [] } (retryMoves.take 5)).store.version (ascii "1")
      = some [] := by rfl
  rw [gone, Option.some.injEq] at there
  rw [← there] at page
  exact absurd page (by decide)

end CkGit.Pages
