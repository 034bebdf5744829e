import CkGit.Projects.Steps

/-!
Every operation of the store asks only for what its locks and its checks of the
repository allow.
-/
namespace CkGit.Projects
open CkGit.Base CkGit.Ci

section
variable {name other : Bytes} {role : Role}

/-- The process is in a section of the metadata lock that it entered with these notes. -/
structure Within (role after : Role) : Prop where
  metadata : after.metadata = true
  lifecycle : after.lifecycle = role.lifecycle
  found : after.found = role.found

theorem Within.trans {first second third : Role} (earlier : Within first second) (later : Within second third) :
    Within first third :=
  ⟨later.metadata, later.lifecycle.trans earlier.lifecycle, later.found.trans earlier.found⟩

theorem underMetadata_follows {body : Steps Bool}
    (h : ∀ inside, Within role inside → (roles name).Follows body inside fun _ => Within role) :
    (roles name).Follows (underMetadata body) role fun _ after =>
      after.lifecycle = role.lifecycle ∧ after.found = role.found := by
  refine Protocol.follows_bind (Protocol.follows_ask trivial fun _ => ?_)
  refine Protocol.follows_bind (Protocol.follows_mono (h _ ⟨rfl, rfl, rfl⟩) fun done after within => ?_)
  exact Protocol.follows_bind (Protocol.follows_ask within.metadata fun _ => ⟨within.lifecycle, within.found⟩)

theorem underLifecycle_follows {body : Steps Unit}
    (h : ∀ inside : Role, inside.lifecycle = true → (roles name).Follows body inside fun _ after =>
      after.lifecycle = true) :
    (roles name).Follows (underLifecycle body) role fun _ _ => True := by
  refine Protocol.follows_bind (Protocol.follows_ask trivial fun _ => ?_)
  refine Protocol.follows_bind (Protocol.follows_mono (h _ rfl) fun _ after held => ?_)
  exact Protocol.follows_ask held fun _ => trivial

theorem allOf_follows {first : ProjectOp Bool} {rest : List (ProjectOp Bool)} {post : Bool → Role → Prop}
    (allowed : (roles name).allowed role first)
    (done : (roles name).Follows (allOf rest) ((roles name).after role first true) post)
    (stopped : post false ((roles name).after role first false)) :
    (roles name).Follows (allOf (first :: rest)) role post := by
  refine Protocol.follows_bind (Protocol.follows_ask allowed fun reply => ?_)
  cases reply with
  | true => exact done
  | false => exact stopped

theorem appendStateEvent_follows {epoch_seconds : UInt64} {kind client_id : Bytes} {full : Bool} :
    (roles name).Follows (appendStateEvent epoch_seconds kind other client_id full) role fun _ after =>
      after.lifecycle = role.lifecycle ∧ after.found = role.found := by
  refine underMetadata_follows fun inside within => ?_
  have append : ∀ inside, Within role inside → (roles name).Follows
      (allOf [.append epoch_seconds kind other client_id]) inside fun _ => Within role := fun inside within =>
    allOf_follows within.metadata (within.trans ⟨within.metadata, rfl, rfl⟩)
      (within.trans ⟨within.metadata, rfl, rfl⟩)
  refine allOf_follows within.metadata ?_ (within.trans ⟨within.metadata, rfl, rfl⟩)
  cases full with
  | false => exact append _ (within.trans ⟨within.metadata, rfl, rfl⟩)
  | true =>
    refine allOf_follows within.metadata ?_ (within.trans ⟨within.metadata, rfl, rfl⟩)
    refine allOf_follows rfl ?_ (within.trans ⟨within.metadata, rfl, rfl⟩)
    refine allOf_follows within.metadata ?_ (within.trans ⟨within.metadata, rfl, rfl⟩)
    exact append _ (within.trans ⟨within.metadata, rfl, rfl⟩)

theorem registerCheckout_follows {client_id : Bytes} (found : other = name → role.found = some true) :
    (roles name).Follows (registerCheckout other client_id) role fun _ after =>
      after.lifecycle = role.lifecycle ∧ after.found = role.found := by
  refine underMetadata_follows fun inside within => ?_
  refine allOf_follows trivial ?_ within
  refine allOf_follows ⟨within.metadata, fun mine => within.found.trans (found mine)⟩ ?_ ?_
  · exact within.trans ⟨within.metadata, rfl, rfl⟩
  · exact within.trans ⟨within.metadata, rfl, rfl⟩

theorem rmdirProject_follows (metadata : role.metadata = true) :
    (roles name).Follows (.ask (.rmdirProject other)) role fun done after =>
      Within role after ∧ after.logs = role.logs ∧ (done = true → other = name → after.unregistered = true) := by
  refine Protocol.follows_ask metadata fun reply => ?_
  simp only [roles]
  split
  · refine ⟨⟨metadata, rfl, rfl⟩, rfl, fun done _ => ?_⟩
    simp [done]
  · rename_i different
    exact ⟨⟨metadata, rfl, rfl⟩, rfl, fun _ mine => absurd mine different⟩

theorem removeCheckouts_follows (metadata : role.metadata = true) (gone : other = name → role.found = some false) :
    (roles name).Follows (removeCheckouts other) role fun done after =>
      Within role after ∧ after.logs = role.logs ∧ (done = true → other = name → after.unregistered = true) := by
  refine Protocol.follows_bind (Protocol.follows_ask trivial fun reply => ?_)
  cases reply with
  | none => exact ⟨⟨metadata, rfl, rfl⟩, rfl, nofun⟩
  | some clients =>
    show (roles name).Follows (unlinkEach other clients) role _
    induction clients with
    | nil => exact rmdirProject_follows metadata
    | cons client_id rest ih =>
      refine Protocol.follows_bind (Protocol.follows_ask ⟨metadata, gone⟩ fun reply => ?_)
      cases reply with
      | true => exact ih
      | false => exact ⟨⟨metadata, rfl, rfl⟩, rfl, nofun⟩

/-- The logs but these hold no event of the project. -/
def Scrubbed (name : Bytes) (files : List Nat) (logs : Logs) : Prop :=
  ∀ file ∈ logs.names, file ∉ files → ∀ content, logs.files[file]? = some content →
    ∀ event ∈ content, event.project_name ≠ name

theorem scrubbed_replacements (logs : Logs) : Scrubbed name (replacements name logs) logs := by
  intro file named others content there event member same
  refine others (List.mem_filter.mpr ⟨named, ?_⟩)
  rw [there]
  exact List.any_eq_true.mpr ⟨event, member, decide_eq_true same⟩

theorem Scrubbed.clear {logs : Logs} (h : Scrubbed name [] logs) : logs.Clear name := by
  intro event member
  obtain ⟨file, named, content, there, present⟩ := Logs.mem_events.mp member
  exact h file named List.not_mem_nil content there event present

/-- A log that is left with nothing of the project. -/
theorem Scrubbed.edit {file : Nat} {rest : List Nat} {logs : Logs} {f : List StateEvent → List StateEvent}
    (h : Scrubbed name (file :: rest) logs)
    (emptied : ∀ content, logs.files[file]? = some content → ∀ event ∈ f content, event.project_name ≠ name) :
    Scrubbed name rest (logs.edit file f) := by
  intro i named others content there event member
  rw [Logs.edit_file] at there
  split at there
  · rename_i same
    subst same
    obtain ⟨before, found, rfl⟩ := Option.map_eq_some_iff.mp there
    exact emptied before found event member
  · rename_i different
    refine h i named (fun among => ?_) content there event member
    rcases List.mem_cons.mp among with same | later
    · exact different same.symm
    · exact others later

theorem mem_rewritten {content : List StateEvent} {keep : StateEvent → Bool} {event : StateEvent}
    (member : event ∈ rewritten content (content.filter keep)) : event ∈ content := by
  rcases List.mem_append.mp member with retained | tail
  · exact (List.mem_filter.mp retained).1
  · exact List.mem_of_mem_drop tail

theorem take_rewritten (content retained : List StateEvent) :
    (rewritten content retained).take retained.length = retained := by
  simp [rewritten]

theorem edit_const {logs : Logs} {file : Nat} {content held : List StateEvent}
    (there : (logs.edit file fun _ => content).files[file]? = some held) : held = content := by
  rw [Logs.edit_file, if_pos rfl] at there
  obtain ⟨_, _, same⟩ := Option.map_eq_some_iff.mp there
  exact same.symm

/-- The events of other projects are retained. -/
theorem mem_retained {content : List StateEvent} {event : StateEvent} (gone : other = name → role.found = some false)
    (there : role.found ≠ some false) (member : event ∈ content) (mine : event.project_name = name) :
    event ∈ content.filter (!isOf other ·) := by
  refine List.mem_filter.mpr ⟨member, ?_⟩
  simp only [isOf, Bool.not_eq_true', decide_eq_false_iff_not]
  exact fun same => there (gone (same.symm.trans mine))

/-- A log whose content was read is left with what is retained. -/
theorem rewrite_follows {file : Nat} {logs : Logs} {content : List StateEvent} (metadata : role.metadata = true)
    (gone : other = name → role.found = some false) (noted : role.logs = some (logs.edit file fun _ => content)) :
    (roles name).Follows
      (allOf [.writeLog file (content.filter (!isOf other ·)),
        .truncateLog file (content.filter (!isOf other ·)).length]) role
      fun done after => Within role after ∧ after.unregistered = role.unregistered
        ∧ (done = true → after.logs = some (logs.edit file fun _ => content.filter (!isOf other ·))) := by
  have kept : ∀ held, (logs.edit file fun _ => content).files[file]? = some held → held = content :=
    fun _ there => edit_const there
  have written : ((roles name).after role (.writeLog file (content.filter (!isOf other ·))) true).logs
      = some (logs.edit file fun _ => rewritten content (content.filter (!isOf other ·))) := by
    simp [roles, noted, Logs.edit_edit]
  refine allOf_follows ⟨_, noted, fun held there => ?_⟩ ?_
    ⟨⟨metadata, rfl, rfl⟩, rfl, by intros; contradiction⟩
  · obtain rfl := kept held there
    exact ⟨fun event => mem_rewritten, fun still event member mine =>
      List.mem_append_left _ (mem_retained gone still member mine)⟩
  refine allOf_follows ⟨_, written, fun held there => ?_⟩ ⟨⟨metadata, rfl, rfl⟩, rfl, fun _ => ?_⟩
    ⟨⟨metadata, rfl, rfl⟩, rfl, by intros; contradiction⟩
  · obtain rfl := edit_const there
    show (∀ event ∈ (rewritten _ _).take _, _) ∧ (_ → ∀ event ∈ _, _ → event ∈ (rewritten _ _).take _)
    rw [take_rewritten]
    exact ⟨fun event member => List.mem_append_left _ member, fun still event member mine =>
      mem_retained gone still (mem_rewritten member) mine⟩
  · simp only [roles, noted, Option.map_some, if_true, Logs.edit_edit, take_rewritten]

theorem scrubEach_follows {files : List Nat} {logs : Logs} (metadata : role.metadata = true)
    (gone : other = name → role.found = some false) (unregistered : other = name → role.unregistered = true)
    (noted : role.logs = some logs) (scrubbed : Scrubbed other files logs) :
    (roles name).Follows (scrubEach other files) role fun _ => Within role := by
  induction files generalizing role logs with
  | nil =>
    refine Protocol.follows_ask (fun mine => ⟨gone mine, unregistered mine, logs, noted, ?_⟩) fun _ => ⟨metadata, rfl, rfl⟩
    exact mine ▸ scrubbed.clear
  | cons file rest ih =>
    refine Protocol.follows_bind (Protocol.follows_ask trivial fun reply => ?_)
    cases reply with
    | none => exact ⟨metadata, rfl, rfl⟩
    | some content =>
      have read : ((roles name).after role (.readLog file) (some content)).logs
          = some (logs.edit file fun _ => content) := by simp [roles, noted]
      refine Protocol.follows_bind (Protocol.follows_mono (rewrite_follows metadata gone read) ?_)
      rintro done after ⟨within, registered, rewrites⟩
      cases done with
      | false => exact ⟨within.metadata, within.lifecycle, within.found⟩
      | true =>
        have emptied : Scrubbed other rest (logs.edit file fun _ => content.filter (!isOf other ·)) := by
          refine scrubbed.edit fun _ _ event member => ?_
          simpa [isOf] using (List.mem_filter.mp member).2
        refine Protocol.follows_mono (ih within.metadata (fun mine => within.found.trans (gone mine))
          (fun mine => registered.trans (unregistered mine)) (rewrites rfl) emptied) fun _ _ later => ?_
        exact ⟨later.metadata, later.lifecycle.trans within.lifecycle, later.found.trans within.found⟩

theorem removeProjectMetadata_follows (gone : other = name → role.found = some false) :
    (roles name).Follows (removeProjectMetadata other) role fun _ after =>
      after.lifecycle = role.lifecycle ∧ after.found = role.found := by
  refine underMetadata_follows fun inside within => ?_
  refine Protocol.follows_bind (Protocol.follows_ask within.metadata fun reply => ?_)
  have read : Within role ((roles name).after inside .readLogs reply) :=
    ⟨within.metadata, within.lifecycle, within.found⟩
  cases reply with
  | none => exact read
  | some logs =>
    refine Protocol.follows_bind (Protocol.follows_mono (removeCheckouts_follows within.metadata
      fun mine => read.found.trans (gone mine)) ?_)
    rintro done after ⟨later, same, unregistered⟩
    cases done with
    | false => exact read.trans later
    | true =>
      refine Protocol.follows_mono (scrubEach_follows later.metadata
        (fun mine => (read.trans later).found.trans (gone mine)) (unregistered rfl) same
        (scrubbed_replacements logs)) fun _ _ last => (read.trans later).trans last

@[simp] theorem present_lifecycle (reply : Bool) :
    ((roles name).after role (.present other) reply).lifecycle = role.lifecycle := by
  simp only [roles]
  split <;> rfl

theorem present_found {reply : Bool} (mine : other = name) :
    ((roles name).after role (.present other) reply).found = some reply := by
  simp only [roles, if_pos mine]

@[simp] theorem init_lifecycle (reply : Bool) :
    ((roles name).after role (.init other) reply).lifecycle = role.lifecycle := by
  simp only [roles]
  split <;> rfl

@[simp] theorem rename_lifecycle (reply : Bool) :
    ((roles name).after role (.rename other) reply).lifecycle = role.lifecycle := by
  simp only [roles]
  split <;> rfl

theorem rename_found (mine : other = name) :
    ((roles name).after role (.rename other) true).found = some false := by
  simp only [roles, if_pos mine, if_true]

/-- A section that checks for the repository first. -/
theorem present_follows {there gone : Steps Unit} (held : role.lifecycle = true)
    (exists_follows : ∀ after : Role, after.lifecycle = true → (other = name → after.found = some true) →
      (roles name).Follows there after fun _ last => last.lifecycle = true)
    (gone_follows : ∀ after : Role, after.lifecycle = true → (other = name → after.found = some false) →
      (roles name).Follows gone after fun _ last => last.lifecycle = true) :
    (roles name).Follows (do if ← .ask (.present other) then there else gone) role fun _ last =>
      last.lifecycle = true := by
  refine Protocol.follows_bind (Protocol.follows_ask held fun reply => ?_)
  have still : ((roles name).after role (.present other) reply).lifecycle = true := by simpa using held
  cases reply with
  | true => exact exists_follows _ still present_found
  | false => exact gone_follows _ still present_found

theorem createBareRepository_follows :
    (roles name).Follows (createBareRepository other) role fun _ _ => True := by
  refine underLifecycle_follows fun inside held => ?_
  refine present_follows held (fun after held _ => held) fun after held absent => ?_
  refine Protocol.follows_bind (Protocol.follows_ask ⟨held, absent⟩ fun made => ?_)
  have still : ((roles name).after after (.init other) made).lifecycle = true := by simpa using held
  cases made with
  | false => exact still
  | true => exact Protocol.follows_bind (Protocol.follows_ask trivial fun _ => still)

theorem removeProject_follows :
    (roles name).Follows (removeProject other) role fun _ _ => True := by
  refine underLifecycle_follows fun inside held => ?_
  refine present_follows held (fun after held _ => ?_) fun after held _ => held
  refine Protocol.follows_bind (allOf_follows trivial (allOf_follows held (allOf_follows trivial ?_ ?_) ?_) held)
  · have moved : ((roles name).after after (.rename other) true).lifecycle = true := by simpa using held
    refine Protocol.follows_bind (Protocol.follows_mono (removeProjectMetadata_follows rename_found) ?_)
    exact fun _ last kept => kept.1.trans moved
  · show ((roles name).after after (.rename other) true).lifecycle = true
    simpa using held
  · show ((roles name).after after (.rename other) false).lifecycle = true
    simpa using held

theorem sweepEach_follows {names : List Bytes} (held : role.lifecycle = true) :
    (roles name).Follows (sweepEach names) role fun _ after => after.lifecycle = true := by
  induction names generalizing role with
  | nil => exact held
  | cons other rest ih =>
    refine present_follows held (fun after held _ => ih held) fun after held absent => ?_
    refine Protocol.follows_bind (Protocol.follows_mono (removeProjectMetadata_follows absent) ?_)
    intro cleaned last kept
    have still := kept.1.trans held
    cases cleaned with
    | true => exact ih still
    | false => exact still

theorem sweep_follows : (roles name).Follows sweepOrphanProjectMetadata role fun _ _ => True := by
  refine underLifecycle_follows fun inside held => ?_
  refine Protocol.follows_bind (Protocol.follows_ask trivial fun reply => ?_)
  cases reply with
  | none => exact held
  | some names => exact sweepEach_follows held

theorem registerHostedCheckout_follows {epoch_seconds : UInt64} {client_id : Bytes} {full : Bool} :
    (roles name).Follows (registerHostedCheckout epoch_seconds other client_id full) role fun _ _ => True := by
  refine underLifecycle_follows fun inside held => ?_
  refine present_follows held (fun after held there => ?_) fun after held _ => held
  refine Protocol.follows_bind (Protocol.follows_mono (registerCheckout_follows there) fun done next kept => ?_)
  have still := kept.1.trans held
  cases done with
  | false => exact still
  | true =>
    refine Protocol.follows_bind (Protocol.follows_mono appendStateEvent_follows ?_)
    exact fun _ last kept => kept.1.trans still

theorem forgetHostedCheckout_follows {client_id : Bytes} :
    (roles name).Follows (forgetHostedCheckout other client_id) role fun _ _ => True := by
  refine underLifecycle_follows fun inside held => ?_
  refine Protocol.follows_bind (Protocol.follows_mono (underMetadata_follows fun after within => ?_) ?_)
  · exact Protocol.follows_ask within.metadata fun _ => within
  · exact fun _ last kept => kept.1.trans held

theorem appendHostedStateEvent_follows {epoch_seconds : UInt64} {kind client_id : Bytes} {full : Bool} :
    (roles name).Follows (appendHostedStateEvent epoch_seconds kind other client_id full) role fun _ _ => True := by
  refine underLifecycle_follows fun inside held => ?_
  refine present_follows held (fun after held _ => ?_) fun after held _ => held
  refine Protocol.follows_bind (Protocol.follows_mono appendStateEvent_follows ?_)
  exact fun _ last kept => kept.1.trans held

theorem recordEvent_follows {epoch_seconds : UInt64} {kind runner : Bytes} {full : Bool} :
    (roles name).Follows (recordEvent epoch_seconds kind other runner full) role fun _ _ => True :=
  Protocol.follows_bind (Protocol.follows_mono appendStateEvent_follows fun _ _ _ => trivial)

end
end CkGit.Projects
