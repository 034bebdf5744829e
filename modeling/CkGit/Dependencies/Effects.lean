import CkGit.Dependencies.Journal

/-!
What registrations and decisions do to the requests: the effects so far and the
store that records them.
-/
namespace CkGit.Dependencies
open CkGit.Base CkGit.Ci

/-- A registration or a decision that reached its record. -/
inductive Effect where
  | registered (key : Key) (bytes commit : Bytes)
  | decided (key : Key) (package action : Bytes)

section
variable {readers : Readers} {effects : List Effect} {store : Store} {key other : Key} {bytes commit package action : Bytes}
  {directory old : RequestDirectory} {change : RequestDirectory → RequestDirectory} {lock : CiDependencyLock}

def decisionsOf (key : Key) (effects : List Effect) : List (Bytes × Bytes) :=
  effects.filterMap fun effect =>
    match effect with
    | .decided request package action => if request = key then some (package, action) else none
    | .registered _ _ _ => none

/-- A commit is kept once; registering a lock alone adds none. -/
def addCommit (commits : List Bytes) (commit : Bytes) : List Bytes :=
  if commit = [] ∨ commit ∈ commits then commits else commits ++ [commit]

def commitsOf (key : Key) (effects : List Effect) : List Bytes :=
  effects.foldl (fun commits effect =>
    match effect with
    | .registered request _ commit => if request = key then addCommit commits commit else commits
    | .decided _ _ _ => commits) []

def Registered (key : Key) (bytes : Bytes) (effects : List Effect) : Prop :=
  ∃ commit, .registered key bytes commit ∈ effects

@[simp] theorem decisionsOf_decided : decisionsOf key (effects ++ [.decided other package action])
    = decisionsOf key effects ++ if other = key then [(package, action)] else [] := by
  unfold decisionsOf
  rw [List.filterMap_append]
  by_cases same : other = key <;> simp [same]

@[simp] theorem decisionsOf_registered : decisionsOf key (effects ++ [.registered other bytes commit])
    = decisionsOf key effects := by
  unfold decisionsOf
  rw [List.filterMap_append]
  simp

theorem commitsOf_unregistered (free : ∀ text, ¬ Registered key text effects) : commitsOf key effects = [] := by
  unfold commitsOf
  have same : ∀ start, effects.foldl (fun commits effect =>
      match effect with
      | .registered request _ commit => if request = key then addCommit commits commit else commits
      | .decided _ _ _ => commits) start = start := by
    induction effects with
    | nil => exact fun _ => rfl
    | cons effect rest ih =>
      intro start
      have later := ih fun text ⟨commit, member⟩ => free text ⟨commit, List.mem_cons_of_mem _ member⟩
      rw [List.foldl_cons]
      cases effect with
      | registered request bytes commit =>
        have different : request ≠ key := fun same => free bytes ⟨commit, same ▸ List.mem_cons_self⟩
        simp only [if_neg different]
        exact later start
      | decided request package action => exact later start
  exact same []

@[simp] theorem commitsOf_decided : commitsOf key (effects ++ [.decided other package action])
    = commitsOf key effects := by
  unfold commitsOf
  rw [List.foldl_append]
  rfl

@[simp] theorem commitsOf_registered : commitsOf key (effects ++ [.registered other bytes commit])
    = if other = key then addCommit (commitsOf key effects) commit else commitsOf key effects := by
  unfold commitsOf
  rw [List.foldl_append]
  rfl

theorem registered_decided {text : Bytes} :
    Registered key text (effects ++ [.decided other package action]) ↔ Registered key text effects := by
  simp [Registered]

theorem registered_registered {text : Bytes} : Registered key text (effects ++ [.registered other bytes commit])
    ↔ Registered key text effects ∨ (key = other ∧ text = bytes) := by
  simp only [Registered, List.mem_append, List.mem_singleton, Effect.registered.injEq]
  constructor
  · rintro ⟨by_commit, before | ⟨rfl, rfl, rfl⟩⟩
    · exact .inl ⟨by_commit, before⟩
    · exact .inr ⟨rfl, rfl⟩
  · rintro (⟨by_commit, before⟩ | ⟨rfl, rfl⟩)
    · exact ⟨by_commit, .inl before⟩
    · exact ⟨commit, .inr ⟨rfl, rfl, rfl⟩⟩

theorem get_edit (there : requestAt store key = some old) :
    requestAt (edit key change store) other
      = if other = key then some (change old) else requestAt store other := by
  unfold edit
  rw [there]
  exact Assoc.get_put key other (change old) store

theorem makeDirectory_present (there : requestAt store key = some old) : makeDirectory key store = store := by
  unfold makeDirectory
  rw [there]

theorem get_makeDirectory (absent : requestAt store key = none) :
    requestAt (makeDirectory key store) other
      = if other = key then some {} else requestAt store other := by
  unfold makeDirectory
  rw [absent]
  exact Assoc.get_put key other {} store

/-- The requests of a project that are listed. -/
def listed (store : Store) (project : Bytes) : List Key :=
  (store.map (·.1)).filter fun key => key.1 = project ∧ isValidSha256Hex key.2

def requestCount (store : Store) (project : Bytes) : Nat := (listed store project).length

theorem keys_edit (once : (store.map (·.1)).Nodup) (there : requestAt store key = some old) :
    ((edit key change store).map (·.1)).Perm (store.map (·.1)) := by
  unfold edit
  rw [there]
  exact Assoc.keys_put once (List.mem_map_of_mem (Assoc.mem_of_get there)) (change old)

theorem keys_makeDirectory (absent : requestAt store key = none) :
    (makeDirectory key store).map (·.1) = key :: store.map (·.1) := by
  unfold makeDirectory
  rw [absent]
  exact congrArg (List.map Prod.fst) (Assoc.put_absent (Assoc.absent_of_get absent) {})

structure Holds (readers : Readers) (effects : List Effect) (store : Store) : Prop where
  once : (store.map (·.1)).Nodup
  few : ∀ project, requestCount store project ≤ kMaximumRequests
  there : ∀ key bytes, Registered key bytes effects →
    ∃ directory, requestAt store key = some directory ∧ directory.lock = some bytes
  known : ∀ key, decisionsOf key effects ≠ [] → ∃ directory, requestAt store key = some directory
  stored : ∀ key directory, requestAt store key = some directory →
    ∃ request, Stored readers key.2 request directory ∧ request.decisions = decisionsOf key effects
      ∧ request.commits = commitsOf key effects ∧ ∃ bytes, directory.lock = some bytes ∧ Registered key bytes effects
  /-- A journal is full only when no package is approved. -/
  room : ∀ key, (decisionsOf key effects).length < kMaximumDecisions
    ∨ ∀ package, latest (decisionsOf key effects) package ≠ some (ascii "approve")

/-- Effects that no request tells apart. -/
theorem Holds.congr {more : List Effect} (h : Holds readers effects store)
    (decisions : ∀ key, decisionsOf key more = decisionsOf key effects)
    (commits : ∀ key, commitsOf key more = commitsOf key effects)
    (registered : ∀ key bytes, Registered key bytes more ↔ Registered key bytes effects) :
    Holds readers more store where
  once := h.once
  few := h.few
  there key bytes known := h.there key bytes ((registered key bytes).mp known)
  known key decided := h.known key (decisions key ▸ decided)
  stored key directory found := by
    obtain ⟨request, stored, history, kept, bytes, lock, known⟩ := h.stored key directory found
    exact ⟨request, stored, (decisions key).symm ▸ history, (commits key).symm ▸ kept, bytes, lock,
      (registered key bytes).mpr known⟩
  room key := by
    rw [decisions key]
    exact h.room key

theorem requestCount_edit (once : (store.map (·.1)).Nodup) (there : requestAt store key = some old)
    (project : Bytes) : requestCount (edit key change store) project = requestCount store project :=
  ((keys_edit once there).filter _).length_eq

/-- A fresh request with its lock. -/
theorem Holds.locked (h : Holds readers effects store) (absent : requestAt store key = none)
    (parsed : parseCiDependencyLock readers bytes = .ok lock) (digest : lock.sha256 = key.2)
    (room : requestCount store key.1 < kMaximumRequests) :
    Holds readers (effects ++ [.registered key bytes []])
      (edit key (fun request => { request with lock := some bytes }) (makeDirectory key store)) := by
  have fresh : requestAt (makeDirectory key store) key = some {} := by
    rw [get_makeDirectory absent, if_pos rfl]
  have get : ∀ other, requestAt
      (edit key (fun request => { request with lock := some bytes }) (makeDirectory key store)) other
      = if other = key then some { lock := some bytes } else requestAt store other := by
    intro other
    rw [get_edit fresh]
    split
    · rfl
    · rename_i different
      rw [get_makeDirectory absent, if_neg different]
  have once : ((makeDirectory key store).map (·.1)).Nodup := by
    rw [keys_makeDirectory absent]
    exact List.nodup_cons.mpr ⟨Assoc.absent_of_get absent, h.once⟩
  have none_decided : decisionsOf key effects = [] := by
    by_contra decided
    obtain ⟨directory, found⟩ := h.known key decided
    rw [absent] at found
    cases found
  have unregistered : ∀ text, ¬ Registered key text effects := fun text known => by
    obtain ⟨directory, found, _⟩ := h.there key text known
    rw [absent] at found
    cases found
  have none_committed : commitsOf key effects = [] := commitsOf_unregistered unregistered
  refine ⟨(keys_edit once fresh).nodup_iff.mpr once, fun project => ?_, fun other text known => ?_,
    fun other decided => ?_, fun other directory found => ?_, fun other => ?_⟩
  · rw [requestCount_edit once fresh, requestCount, listed, keys_makeDirectory absent, List.filter_cons]
    split
    · rename_i here
      have same : key.1 = project := (of_decide_eq_true here).1
      subst same
      exact room
    · exact h.few project
  · rw [get]
    rcases registered_registered.mp known with before | ⟨rfl, rfl⟩
    · obtain ⟨directory, found, lock⟩ := h.there other text before
      have different : other ≠ key := fun same => by
        rw [same, absent] at found
        cases found
      rw [if_neg different]
      exact ⟨directory, found, lock⟩
    · rw [if_pos rfl]
      exact ⟨_, rfl, rfl⟩
  · rw [decisionsOf_registered] at decided
    obtain ⟨directory, found⟩ := h.known other decided
    rw [get]
    split
    · exact ⟨_, rfl⟩
    · exact ⟨directory, found⟩
  · rw [get] at found
    split at found
    · rename_i same
      subst same
      cases found
      refine ⟨⟨lock, [], []⟩, ⟨⟨bytes, rfl, parsed⟩, digest, rfl, nofun, Nat.zero_le _, rfl,
        ⟨nofun, List.nodup_nil, Nat.zero_le _⟩⟩, ?_, ?_, bytes, rfl, registered_registered.mpr (.inr ⟨rfl, rfl⟩)⟩
      · rw [decisionsOf_registered, none_decided]
        rfl
      · rw [commitsOf_registered, if_pos rfl, none_committed]
        rfl
    · rename_i different
      obtain ⟨request, stored, history, kept, text, lock, known⟩ := h.stored other directory found
      refine ⟨request, stored, ?_, ?_, text, lock, registered_registered.mpr (.inl known)⟩
      · rw [decisionsOf_registered, history]
      · rw [commitsOf_registered, if_neg (Ne.symm different), kept]
  · rw [decisionsOf_registered]
    exact h.room other

/-- A change of one request that keeps its lock. -/
theorem Holds.changed {effect : Effect} {request : CiDependencyRequest} (h : Holds readers effects store)
    (found : requestAt store key = some old) (same_lock : (change old).lock = old.lock)
    (stored : Stored readers key.2 request (change old))
    (history : request.decisions = decisionsOf key (effects ++ [effect]))
    (kept : request.commits = commitsOf key (effects ++ [effect]))
    (registered : ∀ other text, Registered other text (effects ++ [effect]) ↔ Registered other text effects)
    (others : ∀ other, other ≠ key → decisionsOf other (effects ++ [effect]) = decisionsOf other effects
      ∧ commitsOf other (effects ++ [effect]) = commitsOf other effects)
    (room : (decisionsOf key (effects ++ [effect])).length < kMaximumDecisions
      ∨ ∀ package, latest (decisionsOf key (effects ++ [effect])) package ≠ some (ascii "approve")) :
    Holds readers (effects ++ [effect]) (edit key change store) := by
  obtain ⟨_, _, _, _, bytes, lock, known_lock⟩ := h.stored key old found
  refine ⟨(keys_edit h.once found).nodup_iff.mpr h.once, fun project => ?_, fun other text known => ?_,
    fun other decided => ?_, fun other directory there => ?_, fun other => ?_⟩
  · rw [requestCount_edit h.once found]
    exact h.few project
  · rw [get_edit found]
    obtain ⟨directory, there, text_lock⟩ := h.there other text ((registered other text).mp known)
    split
    · rename_i same
      rw [same, found] at there
      cases there
      exact ⟨_, rfl, same_lock.trans text_lock⟩
    · exact ⟨directory, there, text_lock⟩
  · rw [get_edit found]
    split
    · exact ⟨_, rfl⟩
    · rename_i different
      rw [(others other different).1] at decided
      exact h.known other decided
  · rw [get_edit found] at there
    split at there
    · rename_i same
      subst same
      cases there
      exact ⟨request, stored, history, kept, bytes, same_lock.trans lock, (registered other bytes).mpr known_lock⟩
    · rename_i different
      obtain ⟨former, former_stored, former_history, former_kept, text, text_lock, known⟩ := h.stored other directory there
      exact ⟨former, former_stored, former_history.trans (others other different).1.symm,
        former_kept.trans (others other different).2.symm, text, text_lock, (registered other text).mpr known⟩
  · by_cases same : other = key
    · subst same
      exact room
    · rw [(others other same).1]
      exact h.room other

/-- One more commit of a registered lock. -/
theorem Holds.committed (h : Holds readers effects store) (found : requestAt store key = some old)
    (text : old.lock = some bytes) (valid : isValidObjectId commit = true) (filled : commit ≠ [])
    (fresh : commit ∉ commitsOf key effects) (few : (commitsOf key effects).length < kMaximumCommits) :
    Holds readers (effects ++ [.registered key bytes commit])
      (edit key (fun request => { request with commits := some (old.commits.getD [] ++ commit ++ [newline]) }) store) := by
  obtain ⟨request, stored, history, kept, text', lock, known⟩ := h.stored key old found
  rw [text] at lock
  cases lock
  have added : commitsOf key (effects ++ [.registered key bytes commit]) = commitsOf key effects ++ [commit] := by
    rw [commitsOf_registered, if_pos rfl, addCommit, if_neg (not_or.mpr ⟨filled, fresh⟩)]
  refine @Holds.changed _ _ _ _ _ _ _ { request with commits := request.commits ++ [commit] } h found rfl
    ⟨stored.lock, stored.digest, stored.journal, stored.numbered, stored.few, ?_,
      stored.kept.append valid (kept ▸ fresh) (kept ▸ few)⟩ ?_ ?_ ?_ ?_ ?_
  · show old.commits.getD [] ++ commit ++ [newline] = framed (request.commits ++ [commit])
    rw [stored.commits, framed_append]
    simp
  · rw [decisionsOf_registered]
    exact history
  · rw [added, ← kept]
  · intro other other_text
    rw [registered_registered]
    exact ⟨fun either => either.elim id fun ⟨same, same_text⟩ => same ▸ same_text ▸ known, .inl⟩
  · intro other different
    rw [decisionsOf_registered, commitsOf_registered, if_neg (Ne.symm different)]
    exact ⟨rfl, rfl⟩
  · rw [decisionsOf_registered]
    exact h.room key

/-- A registration that finds everything there. -/
theorem Holds.repeated (h : Holds readers effects store) (known : Registered key bytes effects)
    (nothing : commit = [] ∨ commit ∈ commitsOf key effects) :
    Holds readers (effects ++ [.registered key bytes commit]) store := by
  refine h.congr (fun other => decisionsOf_registered) (fun other => ?_) fun other text => ?_
  · rw [commitsOf_registered]
    split
    · rename_i same
      subst same
      rw [addCommit, if_pos nothing]
    · rfl
  · rw [registered_registered]
    exact ⟨fun either => either.elim id fun ⟨same, same_text⟩ => same ▸ same_text ▸ known, .inl⟩

/-- One more decision. -/
theorem Holds.decided {request : CiDependencyRequest} {decision : CiDependencyDecision} (h : Holds readers effects store)
    (found : requestAt store key = some old) (stored : Stored readers key.2 request old)
    (sequence : decision.sequence.toNat = request.history.length + 1)
    (package : decision.package ∈ request.lock.packages.map (·.name)) (action : decision.action ∈ actions)
    (few : request.history.length < kMaximumDecisions)
    (room : request.history.length + 1 < kMaximumDecisions
      ∨ ∀ package, latest (request.decisions ++ [(decision.package, decision.action)]) package ≠ some (ascii "approve")) :
    Holds readers (effects ++ [.decided key decision.package decision.action])
      (edit key (fun directory => { directory with journal := some (old.journal.getD [] ++ (rowOf decision ++ [newline])) })
        store) := by
  obtain ⟨request', stored', history, kept, text, lock, known⟩ := h.stored key old found
  have same : request' = request := Except.ok.inj (stored'.load.symm.trans stored.load)
  subst same
  have added : decisionsOf key (effects ++ [.decided key decision.package decision.action])
      = request'.decisions ++ [(decision.package, decision.action)] := by
    rw [decisionsOf_decided, if_pos rfl, history]
  refine @Holds.changed _ _ _ _ _ _ _ { request' with history := request'.history ++ [decision] } h found rfl
    ⟨stored.lock, stored.digest, ?_, stored.numbered.append sequence package action, ?_, stored.commits, stored.kept⟩
    ?_ ?_ ?_ ?_ ?_
  · show old.journal.getD [] ++ (rowOf decision ++ [newline]) = framed ((request'.history ++ [decision]).map rowOf)
    rw [stored.journal, List.map_append, framed_append]
    simp
  · rw [List.length_append, List.length_singleton]
    exact few
  · rw [added]
    simp [CiDependencyRequest.decisions]
  · rw [commitsOf_decided]
    exact kept
  · exact fun other text => registered_decided
  · intro other different
    rw [decisionsOf_decided, if_neg (Ne.symm different), commitsOf_decided, List.append_nil]
    exact ⟨rfl, rfl⟩
  · rw [added]
    refine room.imp (fun small => ?_) id
    rw [List.length_append, List.length_singleton, CiDependencyRequest.decisions, List.length_map]
    exact small

end

end CkGit.Dependencies
