import CkGit.Index.Watch

/-!
Every thread keeps to its role: a project taken from the queue is rebuilt next,
and only what was read or found since the start of a rebuild is published.
-/
namespace CkGit.Index
open CkGit.Base CkGit.Ci

section
variable {name other : Bytes} {role : Role}

/-- The role has gone on without a new rebuild. -/
structure Role.Kept (role after : Role) : Prop where
  idle : after.taken = false
  started : after.started = role.started
  seen : role.seen ⊆ after.seen

theorem Role.Kept.refl (idle : role.taken = false) : role.Kept role := ⟨idle, rfl, List.Subset.refl _⟩

theorem Role.Kept.trans {first second third : Role} (earlier : first.Kept second)
    (later : second.Kept third) : first.Kept third :=
  ⟨later.idle, later.started.trans earlier.started, fun _ member => later.seen (earlier.seen member)⟩

theorem From.mono {seen more : List Parts} {parts : Parts} (h : From seen parts) (sub : seen ⊆ more) :
    From more parts := by
  intro part read there
  obtain ⟨held, member, same⟩ := h part read there
  exact ⟨held, sub member, same⟩

theorem From.member {seen : List Parts} {parts : Parts} (h : parts ∈ seen) : From seen parts :=
  fun _ _ there => ⟨parts, h, there⟩

theorem From.nothing (seen : List Parts) : From seen fun _ => none := nofun

/-- Reads and finds of the project. -/
theorem read_kept (idle : role.taken = false) (part : Part) (reply : Option Read) :
    role.Kept ((roles name).after role (.read other part) reply)
      ∧ (other = name → (fun p => if p = part then reply else none)
          ∈ ((roles name).after role (.read other part) reply).seen) := by
  simp only [roles]
  split
  · exact ⟨⟨idle, rfl, List.subset_cons_self _ _⟩, fun _ => List.mem_cons_self⟩
  · rename_i different
    exact ⟨Role.Kept.refl idle, fun same => absurd same different⟩

theorem find_kept (idle : role.taken = false) (reply : Option ProjectSummary) :
    role.Kept ((roles name).after role (.find other) reply)
      ∧ (other = name → ∀ summary, reply = some summary →
          summary.parts ∈ ((roles name).after role (.find other) reply).seen) := by
  simp only [roles]
  split
  · refine ⟨⟨idle, rfl, List.subset_cons_self _ _⟩, ?_⟩
    rintro - summary rfl
    exact List.mem_cons_self
  · rename_i different
    exact ⟨Role.Kept.refl idle, fun same => absurd same different⟩

theorem idle_allows {P : Prop} {β : Type} {op : IndexOp β} (idle : role.taken = false) (h : P) :
    (role.taken = true → Leads name op) ∧ P :=
  ⟨fun taken => absurd taken (by simp [idle]), h⟩

theorem readParts_follows (parts : List Part) {held : Parts} (idle : role.taken = false)
    (known : other = name → From role.seen held) :
    (roles name).Follows (readParts other parts held) role fun result after =>
      role.Kept after ∧ (other = name → From after.seen result.1) ∧ (result.2 = none →
        ∀ part, part ≠ .dependency_requests → part ∈ parts ∨ (held part).isSome → (result.1 part).isSome) := by
  induction parts generalizing role held with
  | nil => exact ⟨Role.Kept.refl idle, known, fun _ part _ there => there.resolve_left List.not_mem_nil⟩
  | cons part rest ih =>
    refine Protocol.follows_bind (Protocol.follows_ask (idle_allows idle trivial) fun reply => ?_)
    obtain ⟨kept, member⟩ := @read_kept name other role idle part reply
    cases reply with
    | none =>
      show (roles name).Follows (if _ then _ else _) _ _
      split
      · rename_i requests
        refine Protocol.follows_mono (ih kept.idle fun same => (known same).mono kept.seen) ?_
        refine fun _ _ h => ⟨kept.trans h.1, h.2.1, fun whole asked shows there => h.2.2 whole asked shows ?_⟩
        rw [requests, List.mem_cons] at there
        exact there.imp_left fun listed => listed.resolve_left shows
      · exact ⟨kept, fun same => (known same).mono kept.seen, nofun⟩
    | some read =>
      refine Protocol.follows_mono (ih kept.idle fun same => ?_) fun _ _ h =>
        ⟨kept.trans h.1, h.2.1, fun whole asked shows there => h.2.2 whole asked shows ?_⟩
      · intro asked found there
        change (if asked = part then some read else held asked) = some found at there
        split at there
        · rename_i this
          exact ⟨_, member same, (if_pos this).trans there⟩
        · exact (known same).mono kept.seen asked found there
      · by_cases this : asked = part
        · exact .inr (by simp [this])
        · rw [List.mem_cons, or_assoc] at there
          exact (there.resolve_left this).imp_right fun old => by rwa [if_neg this]

theorem keepOld_follows {summary : ProjectSummary} {error : String} (idle : role.taken = false)
    (known : other = name → From role.seen summary.parts) :
    (roles name).Follows (keepOld other summary error) role fun result after =>
      role.Kept after ∧ (other = name → From after.seen result.parts) := by
  refine Protocol.follows_bind (Protocol.follows_ask (idle_allows idle trivial) fun reply => ?_)
  obtain ⟨kept, member⟩ := @find_kept name other role idle reply
  refine ⟨kept, fun same => ?_⟩
  show From _ ((reply.filter (!·.indexing)).getD summary).parts
  cases found : reply.filter (!·.indexing) with
  | none => exact (known same).mono kept.seen
  | some old => exact From.member (member same old (Option.filter_eq_some_iff.mp found).1)

theorem withMetadata_follows {summary : ProjectSummary} (idle : role.taken = false)
    (known : other = name → From role.seen summary.parts) :
    (roles name).Follows (withMetadata other summary) role fun result after =>
      role.Kept after ∧ (other = name → From after.seen result.parts) := by
  refine Protocol.follows_bind (Protocol.follows_mono (readParts_follows _ idle known) ?_)
  rintro ⟨parts, error⟩ middle ⟨kept, seen, -⟩
  cases error with
  | none => exact ⟨kept, seen⟩
  | some error =>
    refine Protocol.follows_mono (keepOld_follows kept.idle seen) ?_
    exact fun _ _ h => ⟨kept.trans h.1, h.2⟩

theorem summarize_follows {force : Bool} (idle : role.taken = false) :
    (roles name).Follows (summarize other force) role fun result after =>
      role.Kept after ∧ (other = name → From after.seen result.parts) := by
  refine Protocol.follows_bind (Protocol.follows_ask (idle_allows idle trivial) fun fingerprint => ?_)
  cases fingerprint with
  | none => exact keepOld_follows idle fun _ => From.nothing _
  | some fingerprint =>
    refine Protocol.follows_bind (Protocol.follows_ask (idle_allows idle trivial) fun reply => ?_)
    obtain ⟨kept, member⟩ := @find_kept name other role idle reply
    cases found : reply.filter (unchanged force fingerprint) with
    | some old =>
      refine Protocol.follows_mono (withMetadata_follows kept.idle fun same => ?_) ?_
      · exact From.member (member same old (Option.filter_eq_some_iff.mp found).1)
      · exact fun _ _ h => ⟨kept.trans h.1, h.2⟩
    | none =>
      refine Protocol.follows_bind (Protocol.follows_ask (idle_allows kept.idle trivial) fun good => ?_)
      cases good with
      | true =>
        refine Protocol.follows_mono (withMetadata_follows kept.idle fun _ => From.nothing _) ?_
        exact fun _ _ h => ⟨kept.trans h.1, h.2⟩
      | false =>
        refine Protocol.follows_mono (keepOld_follows kept.idle fun _ => From.nothing _) ?_
        exact fun _ _ h => ⟨kept.trans h.1, h.2⟩

/-- A rebuild starts with what was taken. -/
theorem rebuild_follows {force : Bool} (hand : role.taken = true → other = name) :
    (roles name).Follows (rebuild other force) role fun _ after => after.taken = false := by
  have leads : (role.taken = true → other = name) := hand
  refine Protocol.follows_bind (Protocol.follows_ask ⟨leads, trivial⟩ fun present => ?_)
  cases present with
  | false =>
    have idle : ((roles name).after role (.present other) false).taken = false := by
      simp only [roles, and_true]
      split
      · rfl
      · rename_i different
        by_contra taken
        exact different (hand (by simpa using taken))
    exact Protocol.follows_ask (idle_allows idle trivial) fun _ => idle
  | true =>
    have same : (roles name).after role (.present other) true = role := by simp [roles]
    rw [same]
    refine Protocol.follows_bind (Protocol.follows_ask ⟨leads, trivial⟩ fun begun => ?_)
    obtain ⟨revision, time⟩ := begun
    have idle : ((roles name).after role (.start other) (revision, time)).taken = false := by
      simp only [roles]
      split
      · rfl
      · rename_i different
        by_contra taken
        exact different (hand (by simpa using taken))
    refine Protocol.follows_bind (Protocol.follows_mono (summarize_follows idle) ?_)
    rintro summary middle ⟨kept, seen⟩
    refine Protocol.follows_bind (Protocol.follows_ask (idle_allows kept.idle trivial) fun present => ?_)
    cases present with
    | false =>
      have still : ((roles name).after middle (.present other) false).taken = false := by
        simp only [roles]
        split
        · rfl
        · exact kept.idle
      exact Protocol.follows_ask (idle_allows still trivial) fun _ => still
    | true =>
      rw [show (roles name).after middle (.present other) true = middle by simp [roles]]
      refine Protocol.follows_ask (idle_allows kept.idle fun mine => ⟨⟨time, ?_⟩, seen mine⟩) fun _ => ?_
      · rw [kept.started]
        simp only [roles, if_pos mine]
      · show ((roles name).after middle (.publish other summary revision) ()).taken = false
        simp only [roles]
        split <;> exact kept.idle

theorem drainUrgent_follows {honor_stop : Bool} (count : Nat) (idle : role.taken = false) :
    (roles name).Follows (drainUrgent honor_stop count) role fun _ after => after.taken = false := by
  induction count generalizing role with
  | zero => exact idle
  | succ count ih =>
    refine Protocol.follows_bind (Protocol.follows_ask (idle_allows idle trivial) fun reply => ?_)
    cases reply with
    | none =>
      show decide ((none : Option Bytes) = some name) = false
      exact decide_eq_false nofun
    | some other =>
      refine Protocol.follows_bind (Protocol.follows_mono (rebuild_follows fun taken => ?_) fun _ _ => ih)
      exact Option.some.inj (of_decide_eq_true taken)

theorem stopsNow_follows {background : Bool} (idle : role.taken = false) :
    (roles name).Follows (stopsNow background) role fun _ after => after.taken = false := by
  unfold stopsNow
  split
  · exact Protocol.follows_ask (idle_allows idle trivial) fun _ => idle
  · exact idle

theorem sweepEach_follows {background : Bool} (names : List Bytes) (idle : role.taken = false) :
    (roles name).Follows (sweepEach background names) role fun _ after => after.taken = false := by
  induction names generalizing role with
  | nil => exact idle
  | cons other rest ih =>
    refine Protocol.follows_bind (Protocol.follows_mono (stopsNow_follows idle) fun stop first idle => ?_)
    cases stop with
    | true => exact idle
    | false =>
      refine Protocol.follows_bind (Protocol.follows_mono (drainUrgent_follows _ idle) fun _ second idle => ?_)
      refine Protocol.follows_bind (Protocol.follows_mono (stopsNow_follows idle) fun stop third idle => ?_)
      cases stop with
      | true => exact idle
      | false =>
        refine Protocol.follows_bind (Protocol.follows_ask (idle_allows idle trivial) fun _ => ?_)
        refine Protocol.follows_bind (Protocol.follows_mono (rebuild_follows fun taken => ?_) fun _ _ => ih)
        exact absurd taken (by simp [show ((roles name).after third (.unpend other) ()).taken = false from idle])

theorem sweep_follows {background : Bool} (idle : role.taken = false) :
    (roles name).Follows (sweep background) role fun _ after => after.taken = false := by
  refine Protocol.follows_bind (Protocol.follows_ask (idle_allows idle trivial) fun _ => ?_)
  refine Protocol.follows_bind (Protocol.follows_ask (idle_allows idle trivial) fun reply => ?_)
  cases reply with
  | none => exact Protocol.follows_bind (Protocol.follows_ask (idle_allows idle trivial) fun _ => idle)
  | some names =>
    refine Protocol.follows_bind (Protocol.follows_ask (idle_allows idle rfl) fun _ => ?_)
    refine Protocol.follows_bind (Protocol.follows_ask (idle_allows idle trivial) fun good => ?_)
    cases good with
    | false => exact Protocol.follows_bind (Protocol.follows_ask (idle_allows idle trivial) fun _ => idle)
    | true =>
      refine Protocol.follows_bind (Protocol.follows_mono (sweepEach_follows names idle) fun _ after idle => ?_)
      exact Protocol.follows_bind (Protocol.follows_ask (idle_allows idle trivial) fun _ => idle)

theorem run_follows (rounds urgent_burst : Nat) (idle : role.taken = false) :
    (roles name).Follows (run rounds urgent_burst) role fun _ after => after.taken = false := by
  induction rounds generalizing role urgent_burst with
  | zero => exact idle
  | succ rounds ih =>
    refine Protocol.follows_bind (Protocol.follows_ask (idle_allows idle trivial) fun work => ?_)
    cases work with
    | stop => exact idle
    | rebuild other burst =>
      refine Protocol.follows_bind (Protocol.follows_ask ⟨fun _ => trivial, trivial⟩ fun _ => ?_)
      refine Protocol.follows_bind (Protocol.follows_mono (rebuild_follows fun taken => ?_) fun _ after idle => ?_)
      · exact of_decide_eq_true taken
      · exact Protocol.follows_bind (Protocol.follows_ask (idle_allows idle trivial) fun _ => ih burst idle)
    | sweep =>
      exact Protocol.follows_bind (Protocol.follows_mono (sweep_follows idle) fun swept after idle => ih _ idle)

theorem refresh_follows (idle : role.taken = false) :
    (roles name).Follows (refresh other) role fun _ after => after.taken = false := by
  unfold refresh
  split
  · refine Protocol.follows_bind (Protocol.follows_ask (idle_allows idle trivial) fun present => ?_)
    have still : ((roles name).after role (.present other) present).taken = false := by
      simp only [roles]
      split
      · rfl
      · exact idle
    exact Protocol.follows_ask (idle_allows still trivial) fun _ => still
  · exact idle

theorem refreshMetadata_follows (idle : role.taken = false) :
    (roles name).Follows (refreshMetadata other) role fun _ after => after.taken = false := by
  unfold refreshMetadata
  split
  · refine Protocol.follows_bind (Protocol.follows_mono
      (readParts_follows _ idle fun _ => From.nothing _) ?_)
    rintro ⟨parts, error⟩ middle ⟨kept, seen, whole⟩
    refine Protocol.follows_bind (Protocol.follows_ask (idle_allows kept.idle trivial) fun present => ?_)
    have still : ((roles name).after middle (.present other) present).taken = false
        ∧ ((roles name).after middle (.present other) present).seen = middle.seen := by
      simp only [roles]
      split
      · exact ⟨rfl, rfl⟩
      · exact ⟨kept.idle, rfl⟩
    refine Protocol.follows_ask (idle_allows still.1 fun mine published same => ?_) fun _ => still.1
    rw [still.2]
    cases error with
    | none =>
      obtain rfl := Except.ok.inj same
      exact ⟨seen mine, fun part shows => whole rfl part shows (.inl (by cases part <;> decide))⟩
    | some error => cases same
  · exact idle

end
end CkGit.Index
