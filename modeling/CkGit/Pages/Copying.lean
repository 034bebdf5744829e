import CkGit.Pages.Published
import Mathlib.Data.List.Infix

/-!
Publishes and commits keep to their roles: the pointer is renamed only over a
version that is the complete copy of the source, unless a failure was passed
over.
-/
namespace CkGit.Pages
open CkGit.Base CkGit.Ci

theorem siteOf_append (first second : List SourceEntry) :
    siteOf (first ++ second) = siteOf first ++ siteOf second := List.filterMap_append

/-- Nothing is at a path that is not walked. -/
theorem get_siteOf_none {entries : List SourceEntry} {path : Path}
    (absent : path ∉ entries.map (·.path)) : Assoc.get path (siteOf entries) = none := by
  refine Assoc.get_absent fun member => absent ?_
  obtain ⟨_, present, rfl⟩ := List.mem_map.mp member
  obtain ⟨source, place, node⟩ := List.mem_filterMap.mp present
  obtain ⟨_, _, rfl⟩ := Option.map_eq_some_iff.mp node
  exact List.mem_map_of_mem place

theorem get_siteOf_one (path : Path) (entry : SourceEntry) :
    Assoc.get path (siteOf [entry]) = if path = entry.path then entry.node else none := by
  unfold siteOf
  cases found : entry.node with
  | none => simp [found, Assoc.get]
  | some node =>
    simp only [List.filterMap_cons, found, Option.map_some, List.filterMap_nil]
    exact Assoc.get_singleton path entry.path node

/-- A directory that was walked is there. -/
theorem get_siteOf_directory {entries : List SourceEntry} (distinct : (entries.map (·.path)).Nodup)
    {entry : SourceEntry} (member : entry ∈ entries) (directory : entry.kind = .directory) :
    Assoc.get entry.path (siteOf entries) = some .directory := by
  obtain ⟨before, after, rfl⟩ := List.append_of_mem member
  have fresh : entry.path ∉ before.map (·.path) := by
    intro earlier
    rw [List.map_append, List.nodup_append] at distinct
    exact distinct.2.2 _ earlier _ (by simp) rfl
  rw [show before ++ entry :: after = before ++ ([entry] ++ after) from rfl, siteOf_append,
    siteOf_append, Assoc.get_append, Assoc.get_append, get_siteOf_none fresh, get_siteOf_one, if_pos rfl,
    SourceEntry.node, directory]
  rfl

/-- The tree of one entry more. -/
theorem copies_put {before : List SourceEntry} {entry : SourceEntry} {node : Node} {tree : Tree}
    (copies : Copies (siteOf before) tree) (fresh : entry.path ∉ before.map (·.path))
    (found : entry.node = some node) :
    Copies (siteOf (before ++ [entry])) (Assoc.put entry.path node tree) := by
  intro path
  rw [siteOf_append, Assoc.get_append, get_siteOf_one, Assoc.get_put]
  by_cases same : path = entry.path
  · rw [if_pos same, if_pos same, same, get_siteOf_none fresh, found]
    rfl
  · rw [if_neg same, if_neg same, copies path]
    cases Assoc.get path (siteOf before) <;> rfl

theorem siteOf_other {before : List SourceEntry} {entry : SourceEntry} (other : entry.node = none) :
    siteOf (before ++ [entry]) = siteOf before := by
  rw [siteOf_append]
  simp [siteOf, other]

/-- The role has gone on within its publish. -/
structure Role.Same (role after : Role) : Prop where
  publish : after.publish = role.publish
  commits : after.commits = role.commits
  seen : after.seen = role.seen
  left : after.left = role.left
  moved : after.moved = role.moved
  spoiled : after.spoiled = false → role.spoiled = false

theorem Role.Same.refl (role : Role) : role.Same role := ⟨rfl, rfl, rfl, rfl, rfl, id⟩

theorem Role.Same.trans {first second third : Role} (earlier : first.Same second)
    (later : second.Same third) : first.Same third :=
  ⟨later.publish.trans earlier.publish, later.commits.trans earlier.commits,
    later.seen.trans earlier.seen, later.left.trans earlier.left, later.moved.trans earlier.moved,
    fun clean => earlier.spoiled (later.spoiled clean)⟩

/-- The version is this tree, unless a failure was passed over. -/
def Has (role : Role) (tree : Tree) : Prop := role.spoiled = false → role.built = some tree

/-- The operation is a change of the publish's own version. -/
structure Owns (role : Role) (id : Bytes) : Prop where
  own : role.publish.run_id = id
  unmoved : role.moved = false

theorem Owns.same {role after : Role} {id : Bytes} (h : Owns role id) (same : role.Same after) :
    Owns after id :=
  ⟨same.publish ▸ h.own, same.moved.trans h.unmoved⟩

theorem Owns.allowed {role : Role} {id : Bytes} (h : Owns role id) (edit : Edit) :
    roles.allowed role (.change id edit) := by
  simp only [roles, h.unmoved, Bool.false_eq_true, if_false]
  exact h.own.symm

section
variable {role : Role} {id : Bytes} {tree : Tree} {edit : Edit} {path : Path} {publish : CiPublish}

theorem after_spoiled {β : Type} {op : PagesOp β} {reply : β}
    (clean : (roles.after role op reply).spoiled = false) :
    role.spoiled = false ∧ spoils role op reply = false := by
  simpa [roles] using clean

theorem change_same (reply : Bool) : role.Same (roles.after role (.change id edit) reply) := by
  refine ⟨?_, ?_, ?_, ?_, ?_, fun clean => (after_spoiled clean).1⟩ <;> cases reply <;> rfl

theorem change_false (has : Has role tree) : Has (roles.after role (.change id edit) false) tree :=
  fun clean => has (after_spoiled clean).1

theorem change_true (has : Has role tree) {next : Tree} (applies : edit.apply (some tree) = some (some next)) :
    Has (roles.after role (.change id edit) true) next := by
  intro clean
  have built := has (after_spoiled clean).1
  simp only [roles, noted, if_true, built, Option.bind_some, applies, Option.getD_some]

/-- Removing a version makes nothing. -/
theorem removeEach_follows (paths : List Path) (owns : Owns role id) :
    roles.Follows (removeEach id paths) role fun _ after =>
      role.Same after ∧ (role.built = none → after.built = none) := by
  have unmade : ∀ (role : Role) (edit : Edit) (reply : Bool), role.built = none →
      (roles.after role (.change id edit) reply).built = none := by
    intro role edit reply none_built
    cases reply with
    | false => exact none_built
    | true => simp only [roles, noted, if_true, none_built, Option.bind_none]
  induction paths generalizing role with
  | nil =>
    refine Protocol.follows_bind (Protocol.follows_ask (owns.allowed _) fun reply => ?_)
    exact ⟨change_same reply, unmade role _ reply⟩
  | cons path rest ih =>
    refine Protocol.follows_bind (Protocol.follows_ask (owns.allowed _) fun reply => ?_)
    have same := @change_same role id (.unlink path) reply
    cases reply with
    | false => exact ⟨same, unmade role _ false⟩
    | true =>
      refine Protocol.follows_mono (ih (owns.same same)) fun _ after kept => ?_
      exact ⟨same.trans kept.1, fun bare => kept.2 (unmade role _ true bare)⟩

theorem removeAll_follows (owns : Owns role id) :
    roles.Follows (removeAll id) role fun _ after =>
      role.Same after ∧ (role.built = none → after.built = none) :=
  Protocol.follows_bind (Protocol.follows_ask trivial fun paths => by
    have same : roles.after role (.list id) paths = role := by simp [roles, noted, spoils]
    rw [same]
    exact removeEach_follows paths owns)

theorem giveUp_follows {α : Type} (text : String) (owns : Owns role publish.run_id)
    {post : Except String α → Role → Prop} (h : ∀ after error, role.Same after → post (.error error) after) :
    roles.Follows (giveUp publish text : Publishing α).run role post := by
  refine Protocol.follows_andThen (Protocol.follows_lift ?_)
  refine Protocol.follows_mono (removeAll_follows owns) fun _ after kept => ?_
  exact ⟨fun _ _ => h after text kept.1, fun _ => nofun⟩

theorem mkdir_there (there : Assoc.get path tree = some .directory) :
    (Edit.mkdir path).apply (some tree) = some (some tree) := by
  simp only [Edit.apply, there]

theorem mkdir_new (absent : Assoc.get path tree = none) (parent : hasParent tree path) :
    (Edit.mkdir path).apply (some tree) = some (some (Assoc.put path .directory tree)) := by
  simp only [Edit.apply, absent, parent, if_true]

theorem makeEach_append (id : Bytes) (first second : List Path) :
    makeEach id (first ++ second)
      = makeEach id first >>= fun made => if made then makeEach id second else pure false := by
  induction first with
  | nil => rfl
  | cons path rest ih =>
    show Script.call _ _ = Script.call _ _
    congr 1
    funext made
    cases made with
    | false => rfl
    | true => exact ih

/-- A failing mkdir is passed over for the last entry only. -/
theorem mkdir_fails (last : role.atLastDirectory = true) :
    (roles.after role (.change id (.mkdir path)) false).spoiled = true := by
  simp [roles, spoils, last]

/-- Directories that are there stay. -/
theorem makeEach_there {paths : List Path} (owns : Owns role id) (has : Has role tree)
    (there : ∀ path ∈ paths, Assoc.get path tree = some .directory) :
    roles.Follows (makeEach id paths) role fun made after => role.Same after ∧ Has after tree
      ∧ (made = false → role.atLastDirectory = true → after.spoiled = true) := by
  induction paths generalizing role with
  | nil => exact ⟨Role.Same.refl role, has, nofun⟩
  | cons path rest ih =>
    refine Protocol.follows_bind (Protocol.follows_ask (owns.allowed _) fun reply => ?_)
    have same := @change_same role id (.mkdir path) reply
    cases reply with
    | false => exact ⟨same, change_false has, fun _ => mkdir_fails⟩
    | true =>
      refine Protocol.follows_mono (ih (owns.same same) (change_true has (mkdir_there (there path (by simp))))
        fun other member => there other (by simp [member])) fun made after kept => ?_
      refine ⟨same.trans kept.1, kept.2.1, fun failed last => kept.2.2 failed ?_⟩
      rw [Role.atLastDirectory, same.left]
      exact last

theorem inits_tail_dropLast (path : Path) (filled : path ≠ []) :
    path.inits.tail = path.dropLast.inits.tail ++ [path] := by
  obtain ⟨front, last, rfl⟩ : ∃ front last, path = front ++ [last] :=
    ⟨_, _, (List.dropLast_append_getLast filled).symm⟩
  rw [List.dropLast_concat, List.inits_append]
  cases front with
  | nil => rfl
  | cons first rest => simp

/-- What is above an entry. -/
structure Placed (before : List SourceEntry) (entry : SourceEntry) (tree : Tree) : Prop where
  copies : Copies (siteOf before) tree
  fresh : entry.path ∉ before.map (·.path)
  filled : entry.path ≠ []
  above : ∀ parent ∈ entry.path.inits, parent ≠ entry.path → parent ≠ [] →
    Assoc.get parent tree = some .directory

theorem Placed.parents {before : List SourceEntry} {entry : SourceEntry} (placed : Placed before entry tree) :
    ∀ parent ∈ entry.path.dropLast.inits.tail, Assoc.get parent tree = some .directory := by
  intro parent member
  have start : parent <+: entry.path.dropLast := (List.mem_inits _ _).mp (List.mem_of_mem_tail member)
  have shorter := start.length_le
  have long := List.length_pos_iff.mpr placed.filled
  rw [List.length_dropLast] at shorter
  refine placed.above parent ((List.mem_inits _ _).mpr (start.trans (List.dropLast_prefix _))) ?_ ?_
  · rintro rfl
    omega
  · rintro rfl
    cases split : entry.path.dropLast with
    | nil => simp [split] at member
    | cons first rest => simp [split] at member

theorem Placed.hasParent {before : List SourceEntry} {entry : SourceEntry}
    (placed : Placed before entry tree) : hasParent tree entry.path = true := by
  unfold Pages.hasParent
  cases split : entry.path.dropLast with
  | nil => rfl
  | cons first rest =>
    have there : Assoc.get entry.path.dropLast tree = some .directory := by
      refine placed.above _ ((List.mem_inits _ _).mpr (List.dropLast_prefix _)) (fun same => ?_) (by simp [split])
      have shorter := congrArg List.length same
      have long := List.length_pos_iff.mpr placed.filled
      rw [List.length_dropLast] at shorter
      omega
    rw [split] at there
    simp [there]

theorem Placed.absent {before : List SourceEntry} {entry : SourceEntry} (placed : Placed before entry tree) :
    Assoc.get entry.path tree = none := by
  rw [placed.copies, get_siteOf_none placed.fresh]

/-- A directory is copied, or its failure is looked at. -/
theorem createDirectory_follows {before : List SourceEntry} {entry : SourceEntry} (owns : Owns role id)
    (has : Has role tree) (placed : Placed before entry tree) (directory : entry.kind = .directory) :
    roles.Follows (createDirectories id entry.path) role fun made after => role.Same after
      ∧ (made = true → ∃ next, Has after next ∧ Copies (siteOf (before ++ [entry])) next)
      ∧ (made = false → role.atLastDirectory = true → after.spoiled = true) := by
  unfold createDirectories
  rw [inits_tail_dropLast entry.path placed.filled, makeEach_append]
  refine Protocol.follows_bind (Protocol.follows_mono (makeEach_there owns has placed.parents) ?_)
  rintro made middle ⟨same, still, failed⟩
  cases made with
  | false => exact ⟨same, nofun, failed⟩
  | true =>
    refine Protocol.follows_bind (Protocol.follows_ask ((owns.same same).allowed _) fun reply => ?_)
    have onward := same.trans (@change_same middle id (.mkdir entry.path) reply)
    cases reply with
    | true =>
      refine ⟨onward, fun _ => ⟨_, change_true still (mkdir_new placed.absent placed.hasParent), ?_⟩, nofun⟩
      exact copies_put placed.copies placed.fresh (by rw [SourceEntry.node, directory])
    | false =>
      refine ⟨onward, nofun, fun _ last => mkdir_fails ?_⟩
      rw [Role.atLastDirectory, same.left]
      exact last

theorem append_put (path : Path) (content bytes : Bytes) (tree : Tree) :
    append (Assoc.put path (.file content) tree) path bytes = Assoc.put path (.file (content ++ bytes)) tree := by
  simp only [append, Assoc.get_put, if_true]
  exact Assoc.put_put path _ _ tree

theorem writeParts_follows {content : Bytes} {parts : List Bytes} (owns : Owns role id)
    (has : Has role (Assoc.put path (.file content) tree)) :
    roles.Follows (writeParts id path parts) role fun written after => role.Same after
      ∧ (written = true → Has after (Assoc.put path (.file (content ++ parts.flatten)) tree)) := by
  induction parts generalizing role content with
  | nil =>
    refine ⟨Role.Same.refl role, fun _ => ?_⟩
    rwa [List.flatten_nil, List.append_nil]
  | cons part rest ih =>
    refine Protocol.follows_bind (Protocol.follows_ask (owns.allowed _) fun reply => ?_)
    have same := @change_same role id (.write path part) reply
    cases reply with
    | false => exact ⟨same, nofun⟩
    | true =>
      have more : Has (roles.after role (.change id (.write path part)) true)
          (Assoc.put path (.file (content ++ part)) tree) := by
        refine change_true has ?_
        rw [Edit.apply, append_put]
      refine Protocol.follows_mono (ih (owns.same same) more) fun written after kept => ?_
      refine ⟨same.trans kept.1, fun whole => ?_⟩
      rw [List.flatten_cons, ← List.append_assoc]
      exact kept.2 whole

theorem after_readFile (read : Bool) : roles.after role (.readFile path) read = role := by
  simp [roles, noted, spoils]

theorem closeFile_follows {before : List SourceEntry} {entry : SourceEntry} {file : SourceFile}
    {written : Bool} (owns : Owns role publish.run_id) (placed : Placed before entry tree)
    (regular : entry.kind = .regular file)
    (has : written = true → Has role (Assoc.put entry.path (.file file.flushed.flatten) tree)) :
    roles.Follows (closeFile publish entry.path file written).run role fun result after => role.Same after
      ∧ (result = .ok () → ∃ next, Has after next ∧ Copies (siteOf (before ++ [entry])) next) := by
  refine Protocol.follows_andThen (Protocol.follows_lift
    (Protocol.follows_ask trivial fun read => ⟨fun _ _ => ?_, fun _ => nofun⟩))
  rw [after_readFile]
  split
  case isTrue => exact giveUp_follows _ owns fun _ _ same => ⟨same, nofun⟩
  case isFalse good =>
    have whole_parts : written = true := by
      cases written with
      | true => rfl
      | false => exact absurd (Bool.or_true _) good
    refine Protocol.follows_andThen (Protocol.follows_lift
      (Protocol.follows_ask (owns.allowed _) fun reply => ⟨fun _ _ => ?_, fun _ => nofun⟩))
    have whole := copies_put placed.copies placed.fresh
      (show entry.node = some (.file file.content) by rw [SourceEntry.node, regular])
    refine ⟨change_same reply, fun _ => ⟨_, ?_, whole⟩⟩
    cases reply with
    | true =>
      refine change_true (has whole_parts) ?_
      rw [Edit.apply, append_put]
      rfl
    | false =>
      intro clean
      have empty : file.held = [] := by simpa [spoils] using (after_spoiled clean).2
      rw [SourceFile.content, empty, List.append_nil]
      exact has whole_parts (after_spoiled clean).1

/-- A regular file is copied, or its failure is looked at. -/
theorem copyFile_follows {before : List SourceEntry} {entry : SourceEntry} {file : SourceFile}
    (owns : Owns role publish.run_id) (has : Has role tree) (placed : Placed before entry tree)
    (regular : entry.kind = .regular file) :
    roles.Follows (copyFile publish entry.path file).run role fun result after => role.Same after
      ∧ ∀ failed, result = .ok failed →
        ∃ next, Has after next ∧ Copies (siteOf (before ++ [entry])) next := by
  have closes : ∀ {middle : Role} {made written : Bool}, role.Same middle →
      (written = true → Has middle (Assoc.put entry.path (.file file.flushed.flatten) tree)) →
      roles.Follows (do closeFile publish entry.path file written; return !made : Publishing Bool).run
        middle fun result after => role.Same after ∧ ∀ failed, result = .ok failed →
          ∃ next, Has after next ∧ Copies (siteOf (before ++ [entry])) next := by
    intro middle made written same whole
    refine Protocol.follows_andThen
      (Protocol.follows_mono (closeFile_follows (owns.same same) placed regular whole) ?_)
    intro result after kept
    exact ⟨fun _ good => ⟨same.trans kept.1, fun _ _ => kept.2 good⟩, fun _ _ => ⟨same.trans kept.1, nofun⟩⟩
  refine Protocol.follows_andThen (Protocol.follows_lift
    (Protocol.follows_mono (makeEach_there owns has placed.parents) ?_))
  rintro made first ⟨same, still, _⟩
  refine ⟨fun _ _ => ?_, fun _ => nofun⟩
  refine Protocol.follows_andThen (Protocol.follows_lift
    (Protocol.follows_ask ((owns.same same).allowed _) fun opened => ⟨fun _ known => ?_, fun _ => nofun⟩))
  obtain rfl := Except.ok.inj known
  have second := same.trans (@change_same first publish.run_id (.create entry.path) opened)
  cases opened with
  | false =>
    refine Protocol.follows_andThen (Protocol.follows_return ⟨fun _ known => ?_, fun _ => nofun⟩)
    obtain rfl := Except.ok.inj known
    exact closes second nofun
  | true =>
    have created : Has (roles.after first (.change publish.run_id (.create entry.path)) true)
        (Assoc.put entry.path (.file []) tree) := by
      refine change_true still ?_
      simp [Edit.apply, placed.absent, placed.hasParent]
    refine Protocol.follows_andThen (Protocol.follows_lift
      (Protocol.follows_mono (writeParts_follows (owns.same second) created) ?_))
    rintro written third ⟨onward, whole⟩
    exact ⟨fun _ known => Except.ok.inj known ▸ closes (second.trans onward) whole, fun _ => nofun⟩

/-- The pointer is not moved yet, and a commit has seen no newer site. -/
structure Ready (publish : CiPublish) (role : Role) : Prop where
  own : role.publish = publish
  unmoved : role.moved = false
  cleared : role.commits → ∀ id, role.seen = some id → id ≤ publish.run_id

theorem Ready.same {after : Role} (ready : Ready publish role) (same : role.Same after) :
    Ready publish after := by
  refine ⟨same.publish.trans ready.own, same.moved.trans ready.unmoved, ?_⟩
  rw [same.commits, same.seen]
  exact ready.cleared

theorem Ready.owns (ready : Ready publish role) : Owns role publish.run_id :=
  ⟨congrArg CiPublish.run_id ready.own, ready.unmoved⟩

/-- The version holds what these entries are, unless a failure was passed over. -/
def Holds (entries : List SourceEntry) (role : Role) : Prop :=
  ∃ tree, Has role tree ∧ Copies (siteOf entries) tree

theorem Holds.of_spoiled {entries : List SourceEntry} (spoiled : role.spoiled = true) :
    Holds entries role := by
  refine ⟨siteOf entries, fun clean => ?_, fun _ => rfl⟩
  rw [spoiled] at clean
  cases clean

theorem Source.placed (source : Source) {before rest : List SourceEntry} {entry : SourceEntry}
    (whole : source.entries = before ++ entry :: rest) (copies : Copies (siteOf before) tree) :
    Placed before entry tree := by
  have distinct := source.distinct
  rw [whole, List.map_append, List.nodup_append] at distinct
  obtain ⟨filled, above⟩ := source.rooted before entry rest whole
  refine ⟨copies, fun earlier => distinct.2.2 _ earlier _ (by simp) rfl, filled, ?_⟩
  intro parent start other nonempty
  obtain ⟨directory, member, rfl, kind⟩ := above parent start other nonempty
  rw [copies, get_siteOf_directory distinct.1 member kind]

theorem after_increment (reply : Bool) :
    roles.after role .increment reply = { role with left := role.left.tail } := by
  simp [roles, noted, spoils]

/-- The walk ends with the whole source, unless it throws or a failure was passed over. -/
theorem copyEntries_follows {source : Source} {before entries : List SourceEntry}
    (whole : source.entries = before ++ entries) {count total : Nat} {error : Bool}
    (ready : Ready publish role) (left : role.left = entries)
    (held : (error = true ∧ entries ≠ []) ∨ Holds before role) :
    roles.Follows (copyEntries publish entries count total error).run role fun result after =>
      Ready publish after ∧ (result = .ok () → Holds source.entries after) := by
  induction entries generalizing before role count total error with
  | nil =>
    refine Protocol.follows_return ⟨ready, fun _ => ?_⟩
    rw [whole, List.append_nil]
    exact held.resolve_left fun wrong => wrong.2 rfl
  | cons entry rest ih =>
    -- The rest of the walk, from whatever this entry led to.
    have onward : ∀ {middle : Role} {total : Nat} {error : Bool}, role.Same middle →
        ((error = true ∧ rest ≠ []) ∨ Holds (before ++ [entry]) middle) →
        roles.Follows (do
          if ← ask .increment then copyEntries publish rest (count + 1) total error
          else throw "filesystem error: cannot increment recursive directory iterator"
          : Publishing Unit).run middle fun result after =>
            Ready publish after ∧ (result = .ok () → Holds source.entries after) := by
      intro middle total error same held
      refine Protocol.follows_andThen (Protocol.follows_lift
        (Protocol.follows_ask trivial fun reply => ⟨fun _ known => ?_, fun _ => nofun⟩))
      obtain rfl := Except.ok.inj known
      rw [after_increment]
      have still := ready.same same
      cases reply with
      | false => exact Protocol.follows_throw ⟨⟨still.own, still.unmoved, still.cleared⟩, nofun⟩
      | true =>
        refine ih (whole.trans (List.append_assoc before [entry] rest).symm) ⟨still.own, still.unmoved, still.cleared⟩ ?_ ?_
        · show middle.left.tail = rest
          rw [same.left, left]
          rfl
        · exact held
    -- An entry passed over is the last one, or its error is looked at.
    have skipped : ∀ {middle : Role}, role.Same middle → (rest = [] → middle.spoiled = true) →
        roles.Follows (do
          if ← ask .increment then copyEntries publish rest (count + 1) total true
          else throw "filesystem error: cannot increment recursive directory iterator"
          : Publishing Unit).run middle fun result after =>
            Ready publish after ∧ (result = .ok () → Holds source.entries after) := by
      intro middle same spoiled
      refine onward same ?_
      by_cases last : rest = []
      · exact .inr (Holds.of_spoiled (spoiled last))
      · exact .inl ⟨rfl, last⟩
    unfold copyEntries
    split
    case isTrue => exact Protocol.follows_throw ⟨ready, nofun⟩
    case isFalse clear =>
      obtain ⟨tree, has, copies⟩ : Holds before role := held.resolve_left fun wrong => clear wrong.1
      have placed := source.placed whole copies
      split
      case isTrue => exact giveUp_follows _ ready.owns fun _ _ same => ⟨ready.same same, nofun⟩
      case isFalse =>
        refine Protocol.follows_andThen (Protocol.follows_lift
          (Protocol.follows_ask trivial fun found => ⟨fun _ known => ?_, fun _ => nofun⟩))
        obtain rfl := Except.ok.inj known
        cases found with
        | false =>
          refine skipped ⟨rfl, rfl, rfl, rfl, rfl, fun clean => (after_spoiled clean).1⟩ fun last => ?_
          simp [roles, spoils, left, last]
        | true =>
        rw [show roles.after role (.relative entry.path) true = role by simp [roles, noted, spoils]]
        refine Protocol.follows_andThen (Protocol.follows_lift
          (Protocol.follows_ask trivial fun known_kind => ⟨fun _ known => ?_, fun _ => nofun⟩))
        obtain rfl := Except.ok.inj known
        rw [show roles.after role (.symlinkStatus entry.path) known_kind = role by simp [roles, noted, spoils]]
        cases known_kind with
        | false => exact Protocol.follows_throw ⟨ready, nofun⟩
        | true =>
        simp only [Bool.not_true, Bool.false_eq_true, if_false]
        split
        case h_1 directory =>
          refine Protocol.follows_andThen (Protocol.follows_lift
            (Protocol.follows_mono (createDirectory_follows ready.owns has placed directory) ?_))
          rintro made middle ⟨same, copied, failed⟩
          refine ⟨fun _ known => ?_, fun _ => nofun⟩
          obtain rfl := Except.ok.inj known
          refine onward same ?_
          cases made with
          | true => exact .inr (copied rfl)
          | false =>
            by_cases last : rest = []
            · refine .inr (Holds.of_spoiled (failed rfl ?_))
              obtain ⟨path, kind⟩ := entry
              rw [Role.atLastDirectory, left, last, show kind = .directory from directory]
            · exact .inl ⟨rfl, last⟩
        case h_2 other =>
          refine onward (Role.Same.refl role) (.inr ⟨tree, has, ?_⟩)
          rw [siteOf_other (by rw [SourceEntry.node, other])]
          exact copies
        case h_3 file regular =>
          refine Protocol.follows_andThen (Protocol.follows_lift
            (Protocol.follows_ask trivial fun measured => ⟨fun _ known => ?_, fun _ => nofun⟩))
          obtain rfl := Except.ok.inj known
          have same : role.Same (roles.after role (.fileSize entry.path) measured) :=
            ⟨rfl, rfl, rfl, rfl, rfl, fun clean => (after_spoiled clean).1⟩
          have still : Has (roles.after role (.fileSize entry.path) measured) tree :=
            fun clean => has (after_spoiled clean).1
          cases measured with
          | false =>
            refine skipped same fun last => ?_
            simp [roles, spoils, left, last]
          | true =>
            simp only [if_true]
            split
            case isTrue =>
              exact giveUp_follows _ (ready.same same).owns fun _ _ further =>
                ⟨ready.same (same.trans further), nofun⟩
            case isFalse =>
              refine Protocol.follows_andThen (Protocol.follows_mono
                (copyFile_follows (ready.same same).owns still placed regular) ?_)
              intro result middle kept
              refine ⟨fun failed good => onward (same.trans kept.1) (.inr (kept.2 failed good)), ?_⟩
              exact fun _ _ => ⟨ready.same (same.trans kept.1), nofun⟩

/-- The versions to prune are removed. -/
theorem removePruned_follows {id : Bytes} (moved : role.moved = true)
    (pruning : id ∈ pruned role.publish role.listed) :
    roles.Follows (removeAll id) role fun _ after => after.moved = true ∧ after.publish = role.publish
      ∧ after.listed = role.listed := by
  have asked : ∀ (role : Role) (edit : Edit), role.moved = true → id ∈ pruned role.publish role.listed →
      roles.allowed role (.change id edit) := by
    intro role edit moved pruning
    simp only [roles, moved, if_true]
    exact pruning
  have kept : ∀ (role : Role) (edit : Edit) (reply : Bool), role.moved = true →
      (roles.after role (.change id edit) reply).moved = true
        ∧ (roles.after role (.change id edit) reply).publish = role.publish
        ∧ (roles.after role (.change id edit) reply).listed = role.listed := by
    intro role edit reply moved
    cases reply <;> exact ⟨moved, rfl, rfl⟩
  refine Protocol.follows_bind (Protocol.follows_ask trivial fun paths => ?_)
  rw [show roles.after role (.list id) paths = role by simp [roles, noted, spoils]]
  induction paths generalizing role with
  | nil =>
    refine Protocol.follows_bind (Protocol.follows_ask (asked role _ moved pruning) fun reply => ?_)
    exact kept role _ reply moved
  | cons path rest ih =>
    refine Protocol.follows_bind (Protocol.follows_ask (asked role _ moved pruning) fun reply => ?_)
    obtain ⟨still, own, same⟩ := kept role (.unlink path) reply moved
    cases reply with
    | false => exact ⟨still, own, same⟩
    | true =>
      refine Protocol.follows_mono (ih still (by rw [own, same]; exact pruning)) ?_
      exact fun _ after last => ⟨last.1, last.2.1.trans own, last.2.2.trans same⟩

theorem prune_follows (own : role.publish = publish) (moved : role.moved = true) :
    roles.Follows (prune publish).run role fun result after =>
      after.spoiled = false → ∀ error, result ≠ .error error := by
  unfold prune
  split
  case isFalse => exact Protocol.follows_return fun _ => nofun
  case isTrue =>
    refine Protocol.follows_andThen (Protocol.follows_lift
      (Protocol.follows_ask trivial fun reply => ⟨fun _ known => ?_, fun _ => nofun⟩))
    obtain rfl := Except.ok.inj known
    cases reply with
    | none =>
      refine Protocol.follows_throw fun clean => ?_
      exact absurd (after_spoiled clean).2 (by simp [spoils])
    | some ids =>
      refine Protocol.follows_lift (Protocol.follows_mono
        (?_ : roles.Follows _ _ fun _ _ => True) fun _ _ _ _ => nofun)
      have removed : ∀ (victims : List Bytes) (role : Role), role.moved = true → role.publish = publish →
          (∀ id ∈ victims, id ∈ pruned role.publish role.listed) →
          roles.Follows (.accumulate victims () fun _ id => removeAll id) role fun _ _ => True := by
        intro victims
        induction victims with
        | nil => exact fun _ _ _ _ => trivial
        | cons id rest ih =>
          intro role moved own each
          refine Protocol.follows_bind (Protocol.follows_mono
            (removePruned_follows moved (each id (by simp))) ?_)
          rintro _ after ⟨still, same, listed⟩
          refine ih after still (same.trans own) fun other member => ?_
          rw [same, listed]
          exact each other (by simp [member])
      refine removed _ _ moved own fun id member => ?_
      show id ∈ pruned role.publish _
      rw [own]
      exact member

/-- The publish throws only before the pointer moves, or after a failure that was passed over. -/
def Honest (result : Except String Unit) (role : Role) : Prop :=
  role.spoiled = false → (∃ error, result = .error error) → role.moved = false

theorem movePointer_follows (ready : Ready publish role) (valid : isValidCiId publish.run_id)
    (holds : Holds publish.entries role) :
    roles.Follows (movePointer publish).run role Honest := by
  refine Protocol.follows_andThen (Protocol.follows_lift
    (Protocol.follows_ask trivial fun staged => ⟨fun _ _ => ?_, fun _ => nofun⟩))
  rw [show roles.after role .stage staged = role by simp [roles, noted, spoils]]
  split
  case isTrue =>
    exact giveUp_follows _ ready.owns fun _ _ same _ _ => (ready.same same).unmoved
  case isFalse =>
    refine Protocol.follows_andThen (Protocol.follows_lift
      (Protocol.follows_ask trivial fun flushed => ⟨fun _ known => ?_, fun _ => nofun⟩))
    obtain rfl := Except.ok.inj known
    have same : role.Same (roles.after role .writeStaging flushed) :=
      ⟨rfl, rfl, rfl, rfl, rfl, fun clean => (after_spoiled clean).1⟩
    have still := ready.same same
    obtain ⟨tree, has, copies⟩ := holds
    refine Protocol.follows_andThen (Protocol.follows_lift (Protocol.follows_ask ?_ fun renamed =>
      ⟨fun _ known => ?_, fun _ => nofun⟩))
    · refine ⟨still.own.symm, still.unmoved, valid, still.cleared, fun clean => ?_⟩
      obtain ⟨before, passed⟩ := after_spoiled clean
      have wrote : flushed = true := by simpa [spoils] using passed
      exact ⟨by rw [wrote, if_pos rfl], tree, has before, copies⟩
    · obtain rfl := Except.ok.inj known
      cases renamed with
      | false =>
        have onward : role.Same (roles.after (roles.after role .writeStaging flushed)
            (.rename publish (if flushed then publish.run_id ++ ascii "\n" else [])) false) :=
          same.trans ⟨rfl, rfl, rfl, rfl, rfl, fun clean => (after_spoiled clean).1⟩
        exact giveUp_follows _ (ready.same onward).owns fun _ _ further _ _ =>
          (ready.same (onward.trans further)).unmoved
      | true =>
        refine Protocol.follows_mono (prune_follows still.own rfl) fun result after unthrown clean wrong => ?_
        obtain ⟨error, failed⟩ := wrong
        exact absurd failed (unthrown clean error)

theorem publishPagesSite_follows (ready : Ready publish role) :
    roles.Follows (publishPagesSite publish).run role Honest := by
  unfold publishPagesSite
  split
  · exact Protocol.follows_throw fun _ _ => ready.unmoved
  split
  · exact Protocol.follows_throw fun _ _ => ready.unmoved
  rename_i identified
  have valid : isValidCiId publish.run_id = true := by simpa using identified
  split
  · exact Protocol.follows_throw fun _ _ => ready.unmoved
  rename_i given
  obtain ⟨source, found⟩ : ∃ source, publish.source = some source := by
    cases there : publish.source with
    | none => rw [there] at given; exact absurd rfl given
    | some source => exact ⟨source, rfl⟩
  have entries : publish.entries = source.entries := by rw [CiPublish.entries, found]; rfl
  refine Protocol.follows_andThen (Protocol.follows_lift
    (Protocol.follows_ask trivial fun made => ⟨fun _ _ => ?_, fun _ => nofun⟩))
  rw [show roles.after role .createVersions made = role by simp [roles, noted, spoils]]
  split
  · exact Protocol.follows_throw fun _ _ => ready.unmoved
  refine Protocol.follows_andThen (Protocol.follows_lift
    (Protocol.follows_mono (removeAll_follows ready.owns) ?_))
  rintro _ cleared ⟨same, unmade⟩
  refine ⟨fun _ _ => ?_, fun _ => nofun⟩
  have second := ready.same same
  refine Protocol.follows_andThen (Protocol.follows_lift (Protocol.follows_ask
    ⟨second.owns.own.symm, second.unmoved⟩ fun made => ⟨fun _ known => ?_, fun _ => nofun⟩))
  obtain rfl := Except.ok.inj known
  have remade : cleared.Same (roles.after cleared (.makeVersion publish.run_id) made) := by
    refine ⟨?_, ?_, ?_, ?_, ?_, fun clean => (after_spoiled clean).1⟩ <;> cases made <;> rfl
  have third := second.same remade
  split
  · exact Protocol.follows_throw fun _ _ => third.unmoved
  rename_i working
  have started : Holds [] (roles.after cleared (.makeVersion publish.run_id) made) := by
    refine ⟨[], fun clean => ?_, fun _ => rfl⟩
    have fresh := (after_spoiled clean).2
    cases made with
    | created => rfl
    | existed => cases fresh
    | failed => exact absurd rfl working
  refine Protocol.follows_andThen (Protocol.follows_lift
    (Protocol.follows_ask trivial fun opened => ⟨fun _ known => ?_, fun _ => nofun⟩))
  obtain rfl := Except.ok.inj known
  have walking : Ready publish
      (roles.after (roles.after cleared (.makeVersion publish.run_id) made) (.walk publish.entries) opened) := by
    cases opened <;> exact ⟨third.own, third.unmoved, third.cleared⟩
  cases opened with
  | true =>
    refine Protocol.follows_andThen (Protocol.follows_mono
      (@copyEntries_follows _ publish source [] _ entries.symm _ _ _ walking rfl (.inr ?_)) ?_)
    · obtain ⟨tree, has, copies⟩ := started
      exact ⟨tree, fun clean => has (after_spoiled clean).1, copies⟩
    · rintro result after ⟨still, whole⟩
      refine ⟨fun _ good => movePointer_follows still valid ?_, fun _ _ _ _ => still.unmoved⟩
      rw [entries]
      exact whole good
  | false =>
    refine movePointer_follows walking valid ?_
    by_cases empty : publish.entries = []
    · obtain ⟨tree, has, copies⟩ := started
      rw [empty]
      exact ⟨tree, fun clean => has (after_spoiled clean).1, copies⟩
    · refine Holds.of_spoiled ?_
      simp [roles, spoils, empty]

theorem publishSite_follows (ready : Ready publish role) :
    roles.Follows (publishSite publish) role fun _ _ => True := by
  refine Protocol.follows_bind (Protocol.follows_mono (publishPagesSite_follows ready) ?_)
  intro result after honest
  refine Protocol.follows_ask (fun clean failed => honest clean ?_) fun _ => trivial
  cases result with
  | ok => cases failed
  | error error => exact ⟨error, rfl⟩

theorem commitSite_follows :
    roles.Follows (commitSite publish) { publish, commits := true } fun _ _ => True := by
  refine Protocol.follows_bind (Protocol.follows_ask trivial fun pointer => ?_)
  show roles.Follows (if _ then _ else _) _ _
  split
  case isTrue => exact Protocol.follows_ask (fun _ failed => by cases failed) fun _ => trivial
  case isFalse older =>
    refine publishSite_follows ⟨rfl, rfl, fun _ id seen => ?_⟩
    by_contra newer
    refine older ?_
    rw [show readCurrent pointer = some id from seen]
    exact decide_eq_true (List.not_le.mp newer)

end
end CkGit.Pages
