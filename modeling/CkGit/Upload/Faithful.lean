import CkGit.Upload.Exclusive

/-!
What an upload promises. Without a lock over a put's read and write it promises
too much: two puts of one chunk that both found it missing both append it. With
one it keeps every promise for files that are not empty and fit the cap; an
empty file never gets a part, and a larger one is refused.
-/
namespace CkGit.Upload
open CkGit.Base Relation

variable {Digest : Type} [DecidableEq Digest] {sha256 : Bytes → Digest} {u : Artifact} {cap : Nat}
  {w v : World Digest}

omit [DecidableEq Digest] in
theorem lose_staged (u : Artifact) (probe : Bool) (w : World Digest) :
    (w.lose u probe).staged = w.staged := by
  cases probe <;> rfl

omit [DecidableEq Digest] in
theorem receive_staged (u : Artifact) (probe : Bool) (reply : Reply) (w : World Digest) :
    (w.receive u probe reply).staged = w.staged := by
  cases probe <;> cases reply <;> rfl

theorem Kept.grown_put (h : Kept sha256 u w) (room : u.total ≤ cap) {put : Put Digest}
    (member : put ∈ w.puts) {served : Served Digest} (same : put.serve cap w.staged = served) :
    Grown w.staged served.staged :=
  same ▸ (serve_well (h.fits put member) h.part room).staged.2.1

theorem Kept.grown (h : Kept sha256 u w) (room : u.total ≤ cap)
    (taken : Step sha256 u Exclusive cap w v) : Grown w.staged v.staged := by
  cases taken with
  | serves taken =>
    cases taken with
    | send ready => exact .refl _
    | ask ready => exact .refl _
    | work current served allowed =>
      exact h.grown_put room (by simp [World.puts, World.current, current]) served
    | answer current served =>
      exact h.grown_put room (by simp [World.puts, World.current, current]) served
    | workLate found served allowed => exact h.grown_put room (by simp [World.puts, found]) served
    | answerLate found served => exact h.grown_put room (by simp [World.puts, found]) served
    | receive current => rw [receive_staged]; exact .refl _
  | cut length ready => exact .refl _
  | dropSend ready => exact .refl _
  | dropAsk ready => exact .refl _
  | leave current => rw [lose_staged]; exact .refl _
  | loseReply current => rw [lose_staged]; exact .refl _

omit [DecidableEq Digest] in
/-- A part as long as the file is the file. -/
theorem Partial.whole {s : Staged Digest} (h : Partial sha256 u s) {bytes : Bytes}
    (part : s.part = some bytes) (length : bytes.length = u.total) : bytes = u.file := by
  have slice := h.slice
  rw [Staged.bytes, part] at slice
  exact slice.eq_of_length length

theorem Partial.takes {s : Staged Digest} (h : Partial sha256 u s) (bytes : Bytes) :
    takeStaged sha256 s = .stored bytes ↔ s.part = some bytes ∧ bytes = u.file := by
  unfold takeStaged
  rcases h.record with absent | present
  · simp [absent, h.blank absent]
  rw [present]
  cases part : s.part with
  | none =>
    have held := held_blank part
    simp only [reduceCtorEq, false_and, iff_false]
    split <;> simp
  | some staged =>
    have held : s.held = staged.length := by simp [Staged.held, Staged.bytes, part]
    by_cases whole : s.held = u.total
    · have file := h.whole part (held ▸ whole)
      subst file
      simp only [Artifact.announced, whole, ne_eq, not_true_eq_false, ↓reduceIte, Taken.stored.injEq,
        Option.some.injEq]
      constructor
      · rintro rfl
        exact ⟨rfl, rfl⟩
      · exact fun both => both.1
    · simp only [Artifact.announced, ne_eq, whole, not_false_eq_true, ↓reduceIte, reduceCtorEq,
        Option.some.injEq, false_iff, not_and]
      rintro rfl rfl
      exact whole held

/-- A run in which the client has not given up. -/
structure Going (sha256 : Bytes → Digest) (u : Artifact) (w : World Digest) : Prop where
  kept : Kept sha256 u w
  running : w.phase ≠ .threw

/-- No request is refused, so the client never gives up while it is served. -/
theorem Going.serves (h : Going sha256 u w) (room : u.total ≤ cap)
    (taken : Serves sha256 u Exclusive cap w v) : Going sha256 u v := by
  refine ⟨h.kept.serves room taken, ?_⟩
  have phase := h.kept.phase
  unfold Progressing at phase
  cases taken with
  | send ready => simp
  | ask ready => simp
  | work current served allowed => simp
  | answer current served => simp
  | workLate found served allowed => exact h.running
  | answerLate found served => exact h.running
  | @receive probe reply current =>
    rw [current] at phase
    obtain ⟨short, recorded, held, rfl, forward, reached⟩ := phase
    cases probe <;> simp only [World.receive, World.again] <;> split <;> simp

/-- A put that must wait for another one waits for one that can be served. -/
theorem serves_enabled (running : w.phase ≠ .threw) (ongoing : w.phase ≠ .returned) :
    ∃ v, Serves sha256 u Exclusive cap w v := by
  cases phase : w.phase with
  | sending => exact ⟨_, .send phase⟩
  | asking => exact ⟨_, .ask phase⟩
  | answered probe reply => exact ⟨_, .receive phase⟩
  | returned => exact absurd phase ongoing
  | threw => exact absurd phase running
  | waiting probe put =>
    cases served : put.serve cap w.staged with
    | replied reply staged => exact ⟨_, .answer phase served⟩
    | working next staged =>
      by_cases allowed : Exclusive put w.late (.working next staged)
      · exact ⟨_, .work phase served allowed⟩
      · simp only [Exclusive, Alone, not_or, not_forall, not_not] at allowed
        obtain ⟨_, other, member, busy⟩ := allowed
        obtain ⟨before, after, found⟩ := List.append_of_mem member
        cases result : other.serve cap w.staged with
        | replied reply staged => exact ⟨_, .answerLate found result⟩
        | working next staged => exact ⟨_, .workLate found result (.inl busy)⟩

omit [DecidableEq Digest] in
/-- A kept upload that has returned left the whole file staged. -/
theorem Kept.returned (h : Kept sha256 u w) (nonempty : 0 < u.total)
    (returned : w.phase = .returned) : w.staged.part = some u.file := by
  have phase := h.phase
  unfold Progressing at phase
  rw [returned] at phase
  have offset := h.offset
  have held := h.part.held_le
  cases part : w.staged.part with
  | none =>
    have none := held_blank part
    omega
  | some bytes =>
    have length : w.staged.held = bytes.length := by simp [Staged.held, Staged.bytes, part]
    rw [h.part.whole part (by omega)]

theorem Going.completes (h : Going sha256 u w) (nonempty : 0 < u.total) (room : u.total ≤ cap) :
    Inevitable (Serves sha256 u Exclusive cap)
      (fun v => v.phase = .returned ∧ v.staged.part = some u.file) w := by
  refine Inevitable.of_measure u.rank (fun _ _ going taken => going.serves room taken)
    (fun _ _ going taken => going.kept.decreases room taken) ?_ h
  intro s going stuck
  have returned : s.phase = .returned := by
    by_contra ongoing
    obtain ⟨t, taken⟩ := serves_enabled going.running ongoing
    exact stuck t taken
  exact ⟨returned, going.kept.returned nonempty returned⟩

/-- A put that will never append: its file is empty or its command is refused. -/
def Vain (u : Artifact) (cap : Nat) (put : Put Digest) : Prop :=
  put.command.total = u.total ∧ (u.total = 0 → put.command.bytes = []) ∧
    (put.serving = .checking ∨
      u.total ≤ cap ∧ (put.serving = .removing ∨ put.serving = .recording))

omit [DecidableEq Digest] in
/-- Without bytes there is nothing to append. -/
theorem compare_empty {c : PutCommand Digest} (empty : c.bytes = []) (held : Nat)
    (staged : Staged Digest) : ∃ reply, c.compare held staged = .replied reply staged := by
  unfold PutCommand.compare
  split
  · exact ⟨_, rfl⟩
  · split
    · exact ⟨_, rfl⟩
    · rw [empty]
      exact ⟨_, rfl⟩

/-- Serving such a put stages no part. -/
theorem Vain.serve {put : Put Digest} (h : Vain u cap put) (useless : u.total = 0 ∨ cap < u.total)
    {s : Staged Digest} (blank : s.part = none) :
    (put.serve cap s).staged.part = none ∧
      ∀ next t, put.serve cap s = .working next t → Vain u cap next := by
  obtain ⟨total, empty, serving⟩ := h
  unfold Put.serve
  rcases serving with checking | ⟨room, removing | recording⟩
  · rw [checking]
    dsimp only
    cases refused : put.command.refused cap with
    | some message => exact ⟨blank, fun _ _ impossible => by cases impossible⟩
    | none =>
      have room : u.total ≤ cap := by
        by_contra large
        unfold PutCommand.refused at refused
        split at refused
        · cases refused
        · rw [if_pos (by omega)] at refused
          cases refused
      have none := empty (by omega)
      dsimp only
      split
      · obtain ⟨reply, same⟩ := compare_empty none s.held s
        rw [same]
        exact ⟨blank, fun _ _ impossible => by cases impossible⟩
      · split
        · exact ⟨blank, fun _ _ impossible => by cases impossible⟩
        · refine ⟨blank, fun _ _ same => ?_⟩
          cases same
          exact ⟨total, empty, .inr ⟨room, .inl rfl⟩⟩
  · rw [removing]
    refine ⟨rfl, fun _ _ same => ?_⟩
    cases same
    exact ⟨total, empty, .inr ⟨room, .inr rfl⟩⟩
  · rw [recording]
    dsimp only
    obtain ⟨reply, same⟩ := compare_empty (empty (by omega)) 0
      { s with record := some ⟨put.command.total, put.command.sha256⟩ }
    rw [same]
    exact ⟨blank, fun _ _ impossible => by cases impossible⟩

/-- No part is staged, and every put at work is in vain. -/
structure Bare (u : Artifact) (cap : Nat) (w : World Digest) : Prop where
  blank : w.staged.part = none
  vain : ∀ put ∈ w.puts, Vain u cap put

omit [DecidableEq Digest] in
theorem vain_command (sha256 : Bytes → Digest) (u : Artifact) (cap offset : Nat) {bytes : Bytes}
    (begins : bytes <+: u.chunk offset) :
    Vain u cap ⟨u.command sha256 offset bytes, .checking⟩ := by
  refine ⟨rfl, fun empty => ?_, .inl rfl⟩
  have file : u.file = [] := List.length_eq_zero_iff.mp empty
  simp only [Artifact.chunk, file, List.drop_nil, List.take_nil, List.prefix_nil] at begins
  exact begins

omit [DecidableEq Digest] in
theorem again_puts (u : Artifact) (w : World Digest) : (w.again u).puts = w.late := by
  by_cases more : w.offset < u.total <;> simp [World.again, World.puts, World.current, more]

omit [DecidableEq Digest] in
theorem fail_puts (w : World Digest) : w.fail.puts = w.late := by
  by_cases often : 6 < w.failures + 1 <;> simp [World.fail, World.puts, World.current, often]

omit [DecidableEq Digest] in
theorem lose_puts (u : Artifact) (probe : Bool) (w : World Digest) :
    (w.lose u probe).puts = w.late := by
  cases probe
  · exact fail_puts w
  · exact again_puts u w

omit [DecidableEq Digest] in
theorem receive_puts (u : Artifact) (probe : Bool) (reply : Reply) (w : World Digest) :
    (w.receive u probe reply).puts = w.late := by
  cases probe <;> cases reply
  · exact again_puts u _
  · exact fail_puts w
  · exact again_puts u _
  · exact again_puts u w

theorem Bare.step {guard : Guard Digest} (h : Bare u cap w) (useless : u.total = 0 ∨ cap < u.total)
    (taken : Step sha256 u guard cap w v) : Bare u cap v := by
  have late : ∀ put ∈ w.late, Vain u cap put := fun put member =>
    h.vain put (List.mem_append_right _ member)
  cases taken with
  | serves taken =>
    cases taken with
    | send ready =>
      refine ⟨h.blank, fun put member => ?_⟩
      rcases List.mem_cons.mp member with rfl | old
      · exact vain_command sha256 u cap _ List.prefix_rfl
      · exact late put old
    | ask ready =>
      refine ⟨h.blank, fun put member => ?_⟩
      rcases List.mem_cons.mp member with rfl | old
      · exact vain_command sha256 u cap _ List.nil_prefix
      · exact late put old
    | @work probe put next staged current served allowed =>
      obtain ⟨blank, vain⟩ :=
        (h.vain put (by simp [World.puts, World.current, current])).serve useless h.blank
      rw [served] at blank
      refine ⟨blank, fun other member => ?_⟩
      rcases List.mem_cons.mp member with rfl | old
      · exact vain _ _ served
      · exact late other old
    | @answer probe put reply staged current served =>
      obtain ⟨blank, _⟩ :=
        (h.vain put (by simp [World.puts, World.current, current])).serve useless h.blank
      rw [served] at blank
      exact ⟨blank, late⟩
    | @workLate put next before after staged found served allowed =>
      obtain ⟨blank, vain⟩ := (h.vain put (by simp [World.puts, found])).serve useless h.blank
      rw [served] at blank
      refine ⟨blank, fun other member => ?_⟩
      have kept : other ∈ w.current ++ (before ++ next :: after) := member
      have choice : other = next ∨ other ∈ w.puts := by
        simp only [World.puts, found, List.mem_append, List.mem_cons] at kept ⊢
        tauto
      rcases choice with rfl | old
      · exact vain _ _ served
      · exact h.vain other old
    | @answerLate put before after reply staged found served =>
      obtain ⟨blank, _⟩ := (h.vain put (by simp [World.puts, found])).serve useless h.blank
      rw [served] at blank
      refine ⟨blank, fun other member => h.vain other ?_⟩
      have kept : other ∈ w.current ++ (before ++ after) := member
      simp only [World.puts, found, List.mem_append, List.mem_cons] at kept ⊢
      tauto
    | receive current =>
      exact ⟨by rw [receive_staged]; exact h.blank, by rw [receive_puts]; exact late⟩
  | cut length ready =>
    refine ⟨h.blank, fun put member => ?_⟩
    rcases List.mem_cons.mp member with rfl | old
    · exact vain_command sha256 u cap _ (List.take_prefix _ _)
    · exact late put old
  | dropSend ready => exact ⟨h.blank, by rw [fail_puts]; exact late⟩
  | dropAsk ready => exact ⟨h.blank, by rw [again_puts]; exact late⟩
  | @leave probe put current =>
    refine ⟨by rw [lose_staged]; exact h.blank, ?_⟩
    rw [lose_puts]
    intro other member
    rcases List.mem_cons.mp member with rfl | old
    · exact h.vain other (by simp [World.puts, World.current, current])
    · exact late other old
  | loseReply current => exact ⟨by rw [lose_staged]; exact h.blank, by rw [lose_puts]; exact late⟩

/-- An empty or too large file never gets a part, whatever the guard. -/
theorem Bare.reachable {guard : Guard Digest} (useless : u.total = 0 ∨ cap < u.total)
    (h : Reachable sha256 u guard cap w) : Bare u cap w :=
  path_preserves (fun _ _ bare taken => bare.step useless taken) h
    ⟨rfl, fun _ member => by cases member⟩

theorem incomplete {guard : Guard Digest} (useless : u.total = 0 ∨ cap < u.total) :
    ¬ Faithful sha256 u guard cap := by
  intro faithful
  obtain ⟨v, path, _, whole⟩ := (faithful.completes World.init .refl (by simp [World.init])).reaches
  have reached : Reachable sha256 u guard cap v := path.lift id fun _ _ taken => .serves taken
  rw [(Bare.reachable useless reached).blank] at whole
  cases whole

/-- With one write at a time an upload keeps its promises exactly for files
that are not empty and fit the cap. -/
theorem faithful_exclusive_iff (sha256 : Bytes → Digest) (u : Artifact) (cap : Nat) :
    Faithful sha256 u Exclusive cap ↔ 0 < u.total ∧ u.total ≤ cap := by
  constructor
  · intro faithful
    by_contra useless
    exact incomplete (by omega) faithful
  · rintro ⟨nonempty, room⟩
    refine ⟨fun w reached => ?_, fun w v reached taken => ?_, ?_, fun w reached => ?_,
      fun w reached running => ?_⟩
    · have part := (Kept.reachable nonempty room reached).part
      exact ⟨part.slice, Nat.le_min.mpr ⟨part.held_le, Nat.le_trans part.held_le room⟩⟩
    · exact ((Kept.reachable nonempty room reached).grown room taken).held
    · intro w reached put member held staged served
      have kept := Kept.reachable nonempty room reached
      have well := serve_well (kept.fits put member) kept.part room
      rw [served] at well
      cases well with
      | replied => rfl
    · exact (Kept.reachable nonempty room reached).part.takes
    · exact Going.completes ⟨Kept.reachable nonempty room reached, running⟩ nonempty room

/-- The first chunk's put, and the staged files once its record is written. -/
def Artifact.first (sha256 : Bytes → Digest) (u : Artifact) : PutCommand Digest :=
  u.command sha256 0 (u.chunk 0)

def Artifact.recorded (sha256 : Bytes → Digest) (u : Artifact) (part : Option Bytes) :
    Staged Digest :=
  ⟨some (u.announced sha256), part⟩

/-- A put of the first chunk that finds no part goes on to append. -/
private theorem serve_first (sha256 : Bytes → Digest) (nonempty : 0 < u.total) (room : u.total ≤ cap) :
    (⟨u.first sha256, .checking⟩ : Put Digest).serve cap {} =
        .working ⟨u.first sha256, .removing⟩ {} ∧
      (⟨u.first sha256, .checking⟩ : Put Digest).serve cap (u.recorded sha256 none) =
        .working ⟨u.first sha256, .appending 0⟩ (u.recorded sha256 none) ∧
      (⟨u.first sha256, .recording⟩ : Put Digest).serve cap {} =
        .working ⟨u.first sha256, .appending 0⟩ (u.recorded sha256 none) := by
  have admitted : (u.first sha256).refused cap = none := by
    have kept : Kept sha256 u World.init := Kept.init nonempty
    exact (kept.fits_command (Nat.le_refl _) List.prefix_rfl).admitted kept.part room
  have chunk : (u.first sha256).bytes.isEmpty = false := u.chunk_nonempty nonempty
  have compared : (u.first sha256).compare 0 (u.recorded sha256 none) =
      .working ⟨u.first sha256, .appending 0⟩ (u.recorded sha256 none) := by
    have start : (u.first sha256).offset = 0 := rfl
    unfold PutCommand.compare
    rw [start, if_neg (Nat.lt_irrefl 0), if_neg (Nat.lt_irrefl 0), chunk]
    rfl
  refine ⟨?_, ?_, compared⟩
  · unfold Put.serve
    dsimp only
    rw [admitted]
    rfl
  · unfold Put.serve
    dsimp only
    rw [admitted]
    exact (if_pos rfl).trans compared

/-- Two puts of the first chunk that both found it missing both append it, and
the second one reports less than is staged. -/
private theorem not_faithful_unguarded (sha256 : Bytes → Digest) (u : Artifact) (cap : Nat) :
    ¬ Faithful sha256 u Unguarded cap := by
  by_cases useless : u.total = 0 ∨ cap < u.total
  · exact incomplete useless
  have nonempty : 0 < u.total := by omega
  have room : u.total ≤ cap := by omega
  obtain ⟨missing, present, recorded⟩ := serve_first sha256 nonempty room
  have started : Reachable sha256 u Unguarded cap
      { phase := .waiting false ⟨u.first sha256, .checking⟩ } := .tail .refl (.serves (.send rfl))
  have removed : Reachable sha256 u Unguarded cap
      { phase := .waiting false ⟨u.first sha256, .recording⟩ } :=
    (started.tail (.serves (.work rfl missing trivial))).tail (.serves (.work rfl rfl trivial))
  -- the first process is about to append; the client gives up on it and starts over
  have writing : Reachable sha256 u Unguarded cap
      { phase := .waiting false ⟨u.first sha256, .appending 0⟩, staged := u.recorded sha256 none } :=
    removed.tail (.serves (.work rfl recorded trivial))
  have left := writing.tail (.leave rfl)
  have asking : Reachable sha256 u Unguarded cap
      { failures := 1, phase := .asking, late := [⟨u.first sha256, .appending 0⟩],
        staged := u.recorded sha256 none } := left
  have again := asking.tail (.dropAsk rfl)
  simp only [World.again, nonempty, ↓reduceIte] at again
  -- the second process finds the same held length before the first one appends
  have both := (again.tail (.serves (.send rfl))).tail (.serves (.work rfl present trivial))
  have stored := both.tail (.serves (.answerLate (List.nil_append _).symm rfl))
  intro faithful
  have reported := faithful.reportsHeld _ stored ⟨u.first sha256, .appending 0⟩
    (by simp [World.puts, World.current]) _ _ rfl
  have chunk := u.chunk_nonempty nonempty
  have bytes : (u.first sha256).bytes = u.chunk 0 := rfl
  simp only [Staged.held, Staged.bytes, Artifact.recorded, Option.getD_some, Option.getD_none,
    List.nil_append, List.length_append, bytes] at reported
  have empty : u.chunk 0 = [] := List.length_eq_zero_iff.mp (by omega)
  rw [empty] at chunk
  cases chunk

/-- One byte, one cap: the byte is staged twice. -/
theorem not_faithful_overlapping :
    ¬ Faithful (fun bytes => bytes) ⟨.kArtifact, ascii "log.tar", [7], by decide⟩ Unguarded 1 :=
  not_faithful_unguarded _ _ _

end CkGit.Upload
