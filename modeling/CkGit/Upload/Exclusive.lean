import Mathlib.Logic.Basic
import Mathlib.Tactic.ByContra
import Mathlib.Tactic.Tauto
import CkGit.Upload.Model

/-!
Runs in which no put turns to writing while another one is writing. A put then
writes what it read: the staged part stays a prefix of the file, and each reply
is the staged length.
-/
namespace CkGit.Upload
open CkGit.Base

variable {Digest : Type} {sha256 : Bytes → Digest} {u : Artifact} {cap : Nat}

/-- The record of this upload. -/
def Artifact.announced (sha256 : Bytes → Digest) (u : Artifact) : Announced Digest :=
  ⟨u.total, sha256 u.file⟩

/-- The staged files hold nothing but a part of this upload. -/
structure Partial (sha256 : Bytes → Digest) (u : Artifact) (s : Staged Digest) : Prop where
  record : s.record = none ∨ s.record = some (u.announced sha256)
  blank : s.record = none → s.part = none
  slice : s.bytes <+: u.file

/-- The staged files grew. -/
structure Grown (s t : Staged Digest) : Prop where
  record : s.record ≠ none → t.record = s.record
  held : s.held ≤ t.held

/-- A put of this upload that can be served: it begins within the part, and if
it is writing, the staged files are as it read them. -/
structure Fits (sha256 : Bytes → Digest) (u : Artifact) (put : Put Digest) (s : Staged Digest) :
    Prop where
  command : put.command = u.command sha256 put.command.offset put.command.bytes
  slice : put.command.bytes <+: u.file.drop put.command.offset
  chunk : put.command.bytes.length ≤ kMaximumCiUploadChunkBytes
  within : put.command.offset ≤ s.held
  recorded : 0 < put.command.offset → s.record ≠ none
  writing : match put.serving with
    | .checking => True
    | .removing | .recording => put.command.offset = 0 ∧ s.record = none
    | .appending held => held = s.held ∧ put.command.offset = held ∧
        put.command.bytes ≠ [] ∧ s.record ≠ none

theorem Grown.refl (s : Staged Digest) : Grown s s := ⟨fun _ => rfl, Nat.le_refl _⟩

theorem Grown.recorded {s t : Staged Digest} (h : Grown s t) (some : s.record ≠ none) :
    t.record ≠ none := by
  rw [h.record some]
  exact some

theorem Fits.grown {put : Put Digest} {s t : Staged Digest} (h : Fits sha256 u put s)
    (idle : ¬ put.Writing) (grown : Grown s t) : Fits sha256 u put t := by
  have checking : put.serving = .checking := not_not.mp idle
  refine ⟨h.command, h.slice, h.chunk, Nat.le_trans h.within grown.held,
    fun later => grown.recorded (h.recorded later), ?_⟩
  rw [checking]
  trivial

theorem Partial.held_le {s : Staged Digest} (h : Partial sha256 u s) : s.held ≤ u.total :=
  h.slice.length_le

/-- The command passes the checks that come before the record is read. -/
theorem Fits.admitted {put : Put Digest} {s : Staged Digest} (h : Fits sha256 u put s)
    (part : Partial sha256 u s) (room : u.total ≤ cap) : put.command.refused cap = none := by
  have within := h.within
  have held := part.held_le
  have length := h.slice.length_le
  have chunk := h.chunk
  rw [List.length_drop] at length
  have total : put.command.total = u.total := by rw [h.command]; rfl
  have valid : isValidUploadName put.command.kind put.command.name = true := by
    rw [h.command]
    exact u.valid
  have file : u.file.length = u.total := rfl
  unfold PutCommand.refused
  rw [if_neg (by simp [valid]), if_neg (by omega), if_neg (by omega), if_neg (by omega)]

/-- How many steps a put's process has left at most. -/
def Serving.left : Serving → Nat
  | .checking => 4
  | .removing => 3
  | .recording => 2
  | .appending _ => 1

/-- What serving a fitting put does: it goes on to write what it read, or
answers with the staged length, which then covers its bytes. -/
inductive ServedWell (sha256 : Bytes → Digest) (u : Artifact) (put : Put Digest)
    (s : Staged Digest) : Served Digest → Prop where
  | working {next : Put Digest} {t : Staged Digest} (part : Partial sha256 u t) (grown : Grown s t)
      (same : ¬ put.Writing → t = s) (fits : Fits sha256 u next t) (writing : next.Writing)
      (command : next.command = put.command) (closer : next.serving.left < put.serving.left) :
      ServedWell sha256 u put s (.working next t)
  | replied {t : Staged Digest} (part : Partial sha256 u t) (grown : Grown s t)
      (same : ¬ put.Writing → t = s) (recorded : t.record ≠ none)
      (reached : put.command.offset ≤ t.held)
      (further : put.command.bytes ≠ [] → put.command.offset < t.held) :
      ServedWell sha256 u put s (.replied (.ok t.held) t)

theorem held_blank {s : Staged Digest} (h : s.part = none) : s.held = 0 := by
  simp [Staged.held, Staged.bytes, h]

/-- The comparison of a fitting put at the held length. -/
theorem compare_well {put : Put Digest} {s t : Staged Digest} (h : Fits sha256 u put s)
    (part : Partial sha256 u t) (grown : Grown s t) (same : ¬ put.Writing → t = s)
    (recorded : t.record ≠ none) (closer : 1 < put.serving.left) :
    ServedWell sha256 u put s (put.command.compare t.held t) := by
  have within := Nat.le_trans h.within grown.held
  unfold PutCommand.compare
  by_cases before : put.command.offset < t.held
  · rw [if_pos before]
    exact .replied part grown same recorded within fun _ => before
  rw [if_neg before, if_neg (by omega)]
  cases bytes : put.command.bytes with
  | nil =>
    rw [if_pos (by simp)]
    exact .replied part grown same recorded within fun some => absurd bytes some
  | cons first rest =>
    rw [if_neg (by simp)]
    refine .working part grown same ⟨h.command, h.slice, h.chunk, within, fun _ => recorded, ?_⟩
      (by simp [Put.Writing]) rfl closer
    refine ⟨rfl, ?_, ?_, recorded⟩
    · dsimp only; omega
    · dsimp only; rw [bytes]; simp

theorem serve_well [DecidableEq Digest] {put : Put Digest} {s : Staged Digest} (h : Fits sha256 u put s)
    (part : Partial sha256 u s) (room : u.total ≤ cap) :
    ServedWell sha256 u put s (put.serve cap s) := by
  have admitted := h.admitted part room
  have writing := h.writing
  have announced : (⟨put.command.total, put.command.sha256⟩ : Announced Digest) =
      u.announced sha256 := by rw [h.command]; rfl
  unfold Put.serve
  cases serving : put.serving with
  | checking =>
    have idle : ¬ put.Writing := not_not.mpr serving
    simp only [admitted, announced]
    rcases part.record with absent | present
    · have first : put.command.offset = 0 := by
        by_contra later
        exact h.recorded (Nat.pos_of_ne_zero later) absent
      rw [if_neg (by simp [absent]), if_neg (by simp [first])]
      refine .working part (.refl s) (fun _ => rfl)
        ⟨h.command, h.slice, h.chunk, h.within, h.recorded, ⟨first, absent⟩⟩ (by simp [Put.Writing])
        rfl ?_
      rw [serving]
      exact Nat.lt_succ_self 3
    · rw [if_pos present]
      refine compare_well h part (.refl s) (fun _ => rfl) (by simp [present]) ?_
      rw [serving]
      decide
  | removing =>
    rw [serving] at writing
    obtain ⟨first, absent⟩ := writing
    have blank := part.blank absent
    have same : ({ s with part := none } : Staged Digest) = s := by
      cases s
      simp_all
    dsimp only
    rw [same]
    refine .working part (.refl s) (fun _ => rfl)
      ⟨h.command, h.slice, h.chunk, h.within, h.recorded, ⟨first, absent⟩⟩ (by simp [Put.Writing])
      rfl ?_
    rw [serving]
    exact Nat.lt_succ_self 2
  | recording =>
    rw [serving] at writing
    obtain ⟨first, absent⟩ := writing
    have blank := part.blank absent
    have busy : put.Writing := by simp [Put.Writing, serving]
    have none_held : ({ s with record := some (u.announced sha256) } : Staged Digest).held = 0 :=
      held_blank blank
    dsimp only
    rw [announced, ← none_held]
    refine compare_well h ⟨.inr rfl, by simp, part.slice⟩ ⟨fun some => absurd absent some, ?_⟩
      (absurd busy) (by simp) ?_
    · exact Nat.le_refl _
    · rw [serving]
      decide
  | appending held =>
    rw [serving] at writing
    obtain ⟨rfl, here, full, recorded⟩ := writing
    have busy : put.Writing := by simp [Put.Writing, serving]
    have length : ({ s with part := some (s.bytes ++ put.command.bytes) } : Staged Digest).held =
        s.held + put.command.bytes.length := by
      simp [Staged.held, Staged.bytes]
    have longer := List.length_pos_iff.mpr full
    dsimp only
    rw [← length]
    refine .replied ⟨part.record, fun absent => absurd absent recorded, ?_⟩
      ⟨fun _ => rfl, ?_⟩ (absurd busy) recorded ?_ fun _ => ?_
    · show s.bytes ++ put.command.bytes <+: u.file
      have slice := h.slice
      have start := part.slice
      rw [here] at slice
      obtain ⟨rest, whole⟩ := start
      rw [← whole] at slice ⊢
      rw [show s.held = s.bytes.length from rfl, List.drop_left] at slice
      exact (List.prefix_append_right_inj _).mpr slice
    · omega
    · omega
    · omega

/-- What the client has reached in each phase. -/
def Progressing (u : Artifact) (w : World Digest) : Prop :=
  match w.phase with
  | .sending | .asking => w.offset < u.total
  | .waiting probe put => w.offset < u.total ∧ (probe = false → put.command.offset = w.offset)
  | .answered _ reply => w.offset < u.total ∧ w.staged.record ≠ none ∧
      ∃ held, reply = .ok held ∧ w.offset ≤ held ∧ held ≤ w.staged.held
  | .returned => w.offset = u.total
  | .threw => True

structure Kept (sha256 : Bytes → Digest) (u : Artifact) (w : World Digest) : Prop where
  part : Partial sha256 u w.staged
  fits : ∀ put ∈ w.puts, Fits sha256 u put w.staged
  alone : w.puts.Pairwise fun put other => ¬ (put.Writing ∧ other.Writing)
  offset : w.offset ≤ w.staged.held
  recorded : 0 < w.offset → w.staged.record ≠ none
  phase : Progressing u w

def Served.staged : Served Digest → Staged Digest
  | .working _ staged => staged
  | .replied _ staged => staged

theorem ServedWell.staged {put : Put Digest} {s : Staged Digest} {served : Served Digest}
    (h : ServedWell sha256 u put s served) : Partial sha256 u served.staged ∧
      Grown s served.staged ∧ (¬ put.Writing → served.staged = s) := by
  cases h with
  | working part grown same => exact ⟨part, grown, same⟩
  | replied part grown same => exact ⟨part, grown, same⟩

/-- Serving one put leaves the others fitting. -/
theorem Fits.beside {put other : Put Digest} {s t : Staged Digest} (h : Fits sha256 u other s)
    (grown : Grown s t) (same : ¬ put.Writing → t = s) (apart : ¬ (put.Writing ∧ other.Writing)) :
    Fits sha256 u other t := by
  by_cases busy : put.Writing
  · exact h.grown (fun both => apart ⟨busy, both⟩) grown
  · rw [same busy]
    exact h

/-- A new put fits at the client's offset. -/
theorem Kept.fits_command {w : World Digest} (h : Kept sha256 u w) {offset : Nat} {bytes : Bytes}
    (reached : offset ≤ w.offset) (begins : bytes <+: u.chunk offset) :
    Fits sha256 u ⟨u.command sha256 offset bytes, .checking⟩ w.staged where
  command := rfl
  slice := begins.trans (List.take_prefix _ _)
  chunk := Nat.le_trans begins.length_le (List.length_take_le _ _)
  within := Nat.le_trans reached h.offset
  recorded later := h.recorded (Nat.lt_of_lt_of_le later reached)
  writing := trivial

/-- The client waits for a new put. -/
theorem Kept.wait {w : World Digest} (h : Kept sha256 u w) {probe : Bool} {put : Put Digest}
    (idle : put.serving = .checking) (fits : Fits sha256 u put w.staged)
    (late : w.puts = w.late) (short : w.offset < u.total)
    (here : probe = false → put.command.offset = w.offset) :
    Kept sha256 u { w with phase := .waiting probe put } where
  part := h.part
  fits other member := by
    rcases List.mem_cons.mp member with rfl | old
    · exact fits
    · exact h.fits other (late ▸ old)
  alone := by
    refine List.pairwise_cons.mpr ⟨fun other _ both => both.1 idle, ?_⟩
    rw [← late]
    exact h.alone
  offset := h.offset
  recorded := h.recorded
  phase := ⟨short, here⟩

/-- The end of the loop, once the offset is known to be held. -/
theorem Kept.again {w : World Digest} (part : Partial sha256 u w.staged)
    (fits : ∀ put ∈ w.late, Fits sha256 u put w.staged)
    (alone : w.late.Pairwise fun put other => ¬ (put.Writing ∧ other.Writing))
    (offset : w.offset ≤ w.staged.held) (recorded : 0 < w.offset → w.staged.record ≠ none) :
    Kept sha256 u (w.again u) := by
  have held := part.held_le
  unfold World.again
  by_cases more : w.offset < u.total
  · rw [if_pos more]
    exact ⟨part, fits, alone, offset, recorded, more⟩
  · rw [if_neg more]
    exact ⟨part, fits, alone, offset, recorded, Nat.le_antisymm (Nat.le_trans offset held)
      (Nat.le_of_not_lt more)⟩

theorem Kept.fail {w : World Digest} (part : Partial sha256 u w.staged)
    (fits : ∀ put ∈ w.late, Fits sha256 u put w.staged)
    (alone : w.late.Pairwise fun put other => ¬ (put.Writing ∧ other.Writing))
    (offset : w.offset ≤ w.staged.held) (recorded : 0 < w.offset → w.staged.record ≠ none)
    (short : w.offset < u.total) : Kept sha256 u w.fail := by
  unfold World.fail
  by_cases often : w.failures + 1 > 6
  · rw [if_pos often]
    exact ⟨part, fits, alone, offset, recorded, trivial⟩
  · rw [if_neg often]
    exact ⟨part, fits, alone, offset, recorded, short⟩

theorem Kept.lose {w : World Digest} (probe : Bool) (part : Partial sha256 u w.staged)
    (fits : ∀ put ∈ w.late, Fits sha256 u put w.staged)
    (alone : w.late.Pairwise fun put other => ¬ (put.Writing ∧ other.Writing))
    (offset : w.offset ≤ w.staged.held) (recorded : 0 < w.offset → w.staged.record ≠ none)
    (short : w.offset < u.total) : Kept sha256 u (w.lose u probe) := by
  unfold World.lose
  cases probe with
  | false => exact .fail part fits alone offset recorded short
  | true => exact .again part fits alone offset recorded

theorem Progressing.grown {w : World Digest} (h : Progressing u w) {late : List (Put Digest)}
    {staged : Staged Digest} (grown : Grown w.staged staged) :
    Progressing u { w with late := late, staged := staged } := by
  unfold Progressing at h ⊢
  dsimp only
  cases phase : w.phase with
  | answered probe reply =>
    rw [phase] at h
    obtain ⟨short, recorded, held, same, forward, reached⟩ := h
    exact ⟨short, grown.recorded recorded, held, same, forward, Nat.le_trans reached grown.held⟩
  | sending => rwa [phase] at h
  | asking => rwa [phase] at h
  | waiting probe put => rwa [phase] at h
  | returned => rwa [phase] at h
  | threw => trivial

/-- Two puts are not both writing, in whichever order they are listed. -/
theorem pairwise_others {front before after : List (Put Digest)} {put : Put Digest} :
    (front ++ (before ++ put :: after)).Pairwise (fun put other => ¬ (put.Writing ∧ other.Writing)) ↔
      (∀ other ∈ front ++ (before ++ after), ¬ (put.Writing ∧ other.Writing)) ∧
        (front ++ (before ++ after)).Pairwise fun put other => ¬ (put.Writing ∧ other.Writing) := by
  rw [← List.append_assoc, List.pairwise_middle (fun apart both => apart both.symm),
    List.pairwise_cons, List.append_assoc]

section
variable {w : World Digest} {front before after : List (Put Digest)} {put next : Put Digest} {t : Staged Digest}

/-- What the others had read still stands beside the put that was served. -/
theorem Kept.others_fit (h : Kept sha256 u w) (puts : w.puts = front ++ (before ++ put :: after))
    (grown : Grown w.staged t) (same : ¬ put.Writing → t = w.staged) :
    ∀ other ∈ front ++ (before ++ after), Fits sha256 u other t := by
  intro other member
  have old : other ∈ w.puts := by
    rw [puts]
    simp only [List.mem_append, List.mem_cons] at member ⊢
    tauto
  exact (h.fits other old).beside grown same ((pairwise_others.mp (puts ▸ h.alone)).1 other member)

/-- So does the put itself, which writes alone. -/
theorem Kept.next_fits (h : Kept sha256 u w) (puts : w.puts = front ++ (before ++ put :: after))
    (grown : Grown w.staged t) (same : ¬ put.Writing → t = w.staged) (fits : Fits sha256 u next t)
    (allowed : Exclusive put (front ++ (before ++ after)) (.working next t)) :
    (∀ other ∈ front ++ (before ++ next :: after), Fits sha256 u other t) ∧
      (front ++ (before ++ next :: after)).Pairwise fun put other => ¬ (put.Writing ∧ other.Writing) := by
  obtain ⟨apart, rest⟩ := pairwise_others.mp (puts ▸ h.alone)
  constructor
  · intro other member
    have choice : other = next ∨ other ∈ front ++ (before ++ after) := by
      simp only [List.mem_append, List.mem_cons] at member ⊢
      tauto
    rcases choice with rfl | old
    · exact fits
    · exact h.others_fit puts grown same other old
  · refine pairwise_others.mpr ⟨fun other old both => ?_, rest⟩
    rcases allowed with busy | alone
    · exact apart other old ⟨busy, both.2⟩
    · exact alone other old both.2

end

variable [DecidableEq Digest]

theorem Kept.serves {w v : World Digest} (h : Kept sha256 u w) (room : u.total ≤ cap)
    (taken : Serves sha256 u Exclusive cap w v) : Kept sha256 u v := by
  have phase := h.phase
  unfold Progressing at phase
  cases taken with
  | send ready =>
    rw [ready] at phase
    exact h.wait rfl (h.fits_command (Nat.le_refl _) List.prefix_rfl) (by simp [World.puts, World.current, ready])
      phase fun _ => rfl
  | ask ready =>
    rw [ready] at phase
    exact h.wait rfl (h.fits_command (Nat.zero_le _) List.nil_prefix) (by simp [World.puts, World.current, ready])
      phase fun probe => by cases probe
  | @work probe put next staged current served allowed =>
    rw [current] at phase
    have puts : w.puts = [] ++ ([] ++ put :: w.late) := by simp [World.puts, World.current, current]
    have well := serve_well (h.fits put (by simp [puts])) h.part room
    rw [served] at well
    cases well with
    | working part grown same fits writing command closer =>
      obtain ⟨all_fit, alone⟩ := h.next_fits puts grown same fits allowed
      exact ⟨part, all_fit, alone, Nat.le_trans h.offset grown.held,
        fun later => grown.recorded (h.recorded later), phase.1, command ▸ phase.2⟩
  | @answer probe put reply staged current served =>
    rw [current] at phase
    have puts : w.puts = [] ++ ([] ++ put :: w.late) := by simp [World.puts, World.current, current]
    have well := serve_well (h.fits put (by simp [puts])) h.part room
    have rest := (pairwise_others.mp (puts ▸ h.alone)).2
    rw [served] at well
    cases well with
    | replied part grown same recorded reached further =>
      exact ⟨part, h.others_fit puts grown same, rest, Nat.le_trans h.offset grown.held, fun _ => recorded, phase.1,
        recorded, _, rfl, Nat.le_trans h.offset grown.held, Nat.le_refl _⟩
  | @workLate put next before after staged found served allowed =>
    have puts : w.puts = w.current ++ (before ++ put :: after) := by simp [World.puts, found]
    have well := serve_well (h.fits put (by simp [puts])) h.part room
    rw [served] at well
    cases well with
    | working part grown same fits writing command closer =>
      obtain ⟨all_fit, alone⟩ := h.next_fits puts grown same fits allowed
      exact ⟨part, all_fit, alone, Nat.le_trans h.offset grown.held,
        fun later => grown.recorded (h.recorded later), h.phase.grown grown⟩
  | @answerLate put before after reply staged found served =>
    have puts : w.puts = w.current ++ (before ++ put :: after) := by simp [World.puts, found]
    have well := serve_well (h.fits put (by simp [puts])) h.part room
    have rest := (pairwise_others.mp (puts ▸ h.alone)).2
    rw [served] at well
    cases well with
    | replied part grown same recorded reached further =>
      exact ⟨part, h.others_fit puts grown same, rest, Nat.le_trans h.offset grown.held, fun _ => recorded,
        h.phase.grown grown⟩
  | @receive probe reply current =>
    rw [current] at phase
    obtain ⟨short, recorded, held, rfl, forward, reached⟩ := phase
    have puts : w.puts = w.late := by simp [World.puts, World.current, current]
    have fits := puts ▸ h.fits
    have alone := puts ▸ h.alone
    unfold World.receive
    cases probe with
    | false => exact .again h.part fits alone reached fun _ => recorded
    | true => exact .again h.part fits alone reached fun _ => recorded

theorem Kept.step {w v : World Digest} (h : Kept sha256 u w) (room : u.total ≤ cap)
    (taken : Step sha256 u Exclusive cap w v) : Kept sha256 u v := by
  have phase := h.phase
  unfold Progressing at phase
  cases taken with
  | serves taken => exact h.serves room taken
  | cut length ready =>
    rw [ready] at phase
    exact h.wait rfl (h.fits_command (Nat.le_refl _) (List.take_prefix _ _))
      (by simp [World.puts, World.current, ready]) phase fun _ => rfl
  | dropSend ready =>
    rw [ready] at phase
    have puts : w.puts = w.late := by simp [World.puts, World.current, ready]
    exact .fail h.part (puts ▸ h.fits) (puts ▸ h.alone) h.offset h.recorded phase
  | dropAsk ready =>
    have puts : w.puts = w.late := by simp [World.puts, World.current, ready]
    exact .again h.part (puts ▸ h.fits) (puts ▸ h.alone) h.offset h.recorded
  | @leave probe put current =>
    rw [current] at phase
    have puts : w.puts = put :: w.late := by simp [World.puts, World.current, current]
    exact .lose probe h.part (puts ▸ h.fits) (puts ▸ h.alone) h.offset h.recorded phase.1
  | @loseReply probe reply current =>
    rw [current] at phase
    have puts : w.puts = w.late := by simp [World.puts, World.current, current]
    exact .lose probe h.part (puts ▸ h.fits) (puts ▸ h.alone) h.offset h.recorded phase.1

omit [DecidableEq Digest] in
theorem Kept.init (nonempty : 0 < u.total) : Kept sha256 u World.init where
  part := ⟨.inl rfl, fun _ => rfl, List.nil_prefix⟩
  fits _ member := by cases member
  alone := .nil
  offset := Nat.le_refl _
  recorded later := absurd later (Nat.lt_irrefl _)
  phase := nonempty

theorem Kept.reachable {w : World Digest} (nonempty : 0 < u.total) (room : u.total ≤ cap)
    (h : Reachable sha256 u Exclusive cap w) : Kept sha256 u w :=
  Base.path_preserves (fun _ _ kept taken => kept.step room taken) h (Kept.init nonempty)

/-- A request that will move the offset ranks below the next send, any other
one above it. -/
def requestRank (moves : Bool) (left : Nat) : Nat := (if moves then 0 else 6) + left

def Phase.rank (offset : Nat) : Phase Digest → Nat
  | .sending => 6
  | .asking => 13
  | .waiting probe put =>
    requestRank (!probe && !put.command.bytes.isEmpty) (put.serving.left + 1)
  | .answered _ reply =>
    match reply with
    | .ok held => requestRank (decide (offset < held)) 1
    | .error _ => 0
  | .returned | .threw => 0

def Artifact.rank (u : Artifact) (w : World Digest) : Nat :=
  8 * (u.total - w.offset) + w.phase.rank w.offset + (w.late.map (·.serving.left)).sum

theorem Serving.left_pos (serving : Serving) : 0 < serving.left := by
  cases serving <;> exact Nat.succ_pos _

omit [DecidableEq Digest] in
theorem Artifact.chunk_nonempty {offset : Nat} (short : offset < u.total) :
    (u.chunk offset).isEmpty = false := by
  have room : 0 < kMaximumCiUploadChunkBytes := by decide
  have file : u.file.length = u.total := rfl
  rw [List.isEmpty_eq_false_iff, ← List.length_pos_iff]
  simp only [Artifact.chunk, List.length_take, List.length_drop]
  omega

omit [DecidableEq Digest] in
/-- Receiving the held length lowers the rank, whether or not it moves. -/
theorem rank_again {w : World Digest} {held : Nat} (short : w.offset < u.total)
    (forward : w.offset ≤ held) :
    8 * (u.total - held) + (if held < u.total then 6 else 0) <
      8 * (u.total - w.offset) + requestRank (decide (w.offset < held)) 1 := by
  unfold requestRank
  by_cases further : w.offset < held
  · simp only [further, decide_true, ↓reduceIte]
    split <;> omega
  · simp only [further, decide_false, Bool.false_eq_true, ↓reduceIte]
    split <;> omega

theorem Kept.decreases {w v : World Digest} (h : Kept sha256 u w) (room : u.total ≤ cap)
    (taken : Serves sha256 u Exclusive cap w v) : u.rank v < u.rank w := by
  have phase := h.phase
  unfold Progressing at phase
  cases taken with
  | send ready =>
    rw [ready] at phase
    have chunk := u.chunk_nonempty phase
    simp only [Artifact.rank, Phase.rank, ready, Artifact.command, chunk, requestRank, Serving.left]
    simp
  | ask ready =>
    simp only [Artifact.rank, Phase.rank, ready, requestRank, Serving.left]
    simp
  | @work probe put next staged current served allowed =>
    have puts : w.puts = put :: w.late := by simp [World.puts, World.current, current]
    have well := serve_well (h.fits put (by simp [puts])) h.part room
    rw [served] at well
    cases well with
    | working part grown same fits writing command closer =>
      simp only [Artifact.rank, Phase.rank, current, command, requestRank]
      omega
  | @answer probe put reply staged current served =>
    rw [current] at phase
    have puts : w.puts = put :: w.late := by simp [World.puts, World.current, current]
    have well := serve_well (h.fits put (by simp [puts])) h.part room
    have left := put.serving.left_pos
    rw [served] at well
    cases well with
    | replied part grown same recorded reached further =>
      have forward : probe = false → put.command.bytes ≠ [] → w.offset < staged.held :=
        fun first full => phase.2 first ▸ further full
      simp only [Artifact.rank, Phase.rank, current, requestRank]
      by_cases moves : probe = false ∧ put.command.bytes ≠ []
      · simp only [forward moves.1 moves.2, decide_true, ↓reduceIte]
        omega
      · have stays : (!probe && !put.command.bytes.isEmpty) = false := by
          cases probe <;> simp_all
        simp only [stays, Bool.false_eq_true, ↓reduceIte]
        split <;> omega
  | @workLate put next before after staged found served allowed =>
    have puts : w.puts = w.current ++ (before ++ put :: after) := by simp [World.puts, found]
    have well := serve_well (h.fits put (by simp [puts])) h.part room
    rw [served] at well
    cases well with
    | working part grown same fits writing command closer =>
      simp only [Artifact.rank, found, List.map_append, List.map_cons, List.sum_append,
        List.sum_cons]
      omega
  | @answerLate put before after reply staged found served =>
    have left := put.serving.left_pos
    simp only [Artifact.rank, found, List.map_append, List.map_cons, List.sum_append, List.sum_cons]
    omega
  | @receive probe reply current =>
    rw [current] at phase
    obtain ⟨short, recorded, held, rfl, forward, reached⟩ := phase
    have lower := rank_again short forward
    have after : u.rank (w.receive u probe (.ok held)) =
        8 * (u.total - held) + (if held < u.total then 6 else 0) +
          (w.late.map (·.serving.left)).sum := by
      cases probe <;> simp only [World.receive, World.again, Artifact.rank] <;> split <;>
        simp [Phase.rank]
    rw [after]
    simp only [Artifact.rank, Phase.rank, current]
    omega

end CkGit.Upload
