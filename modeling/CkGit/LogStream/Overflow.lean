import CkGit.LogStream.Delivery

/-!
The final drain reads 256 chunks at most: of a log with more unread the client
gets a part, cut inside a line, and is told that the step is done.
-/
namespace CkGit.LogStream
open CkGit.Base CkGit.Ci

/-- One line without a newline. -/
def longLine (count : Nat) : Bytes := List.replicate count 'a'.toUInt8

private theorem longLine_plain (count : Nat) : newline ∉ longLine count := fun inside =>
  absurd (List.eq_of_mem_replicate inside) (by decide)

private theorem longLine_append (first second : Nat) : longLine first ++ longLine second = longLine (first + second) :=
  List.replicate_append_replicate

/-- A finished step with a long log, and a stream that has read some chunks of it. -/
def reading (count chunks since : Nat) (sawRunning : Bool) (attempt : Nat) (phase : Phase) (afterResult : Bool) :
    World where
  log := longLine count
  closed := true
  record := { status := .running, attempt := 1, steps := 1 }
  stream := some
    { offset := kChunkBytes * chunks
      emitted := 0
      pending := longLine (kChunkBytes * chunks)
      sinceStatus := since
      sawRunning, attempt, phase, afterResult }

private theorem next_chunk (chunks : Nat) : kChunkBytes * chunks + kChunkBytes = kChunkBytes * (chunks + 1) := by
  rw [Nat.mul_add, Nat.mul_one]

private theorem chunk_longLine {count chunks : Nat} (more : kChunkBytes * (chunks + 1) ≤ count) :
    readCiRunLogChunk (longLine count) (kChunkBytes * chunks) kChunkBytes = longLine kChunkBytes := by
  have positive : 0 < kChunkBytes := by decide
  have size : min (count - kChunkBytes * chunks) (min (count - kChunkBytes * chunks) kChunkBytes) = kChunkBytes := by
    rw [← next_chunk] at more
    omega
  have inside : ¬ (kChunkBytes * chunks ≥ count) := by
    rw [← next_chunk] at more
    omega
  rw [readCiRunLogChunk, longLine, List.length_replicate, if_neg inside, List.drop_replicate, List.take_replicate,
    Nat.min_comm, size]
  rfl

private theorem drain_longLine (chunks : Nat) :
    drainLines 0 [] (longLine (kChunkBytes * chunks) ++ longLine kChunkBytes)
      = ([], 0, longLine (kChunkBytes * (chunks + 1))) := by
  rw [longLine_append, next_chunk, drainLines_plain (longLine_plain _), List.nil_append]

variable {count chunks : Nat}

private theorem reading_start (small : count < 2 ^ 64) : Run 0 (reading count 0 0 false 0 .tailing false) := by
  have initial : Initial 0 { record := { status := .running, attempt := 1, steps := 0 } } :=
    ⟨rfl, le_refl 0, rfl, rfl, rfl⟩
  have grown := Run.next _ _ (.start _ initial) (.grow _ (longLine count) rfl (by simpa [longLine] using small))
  have closed := Run.next _ _ grown (.close _)
  have recorded := Run.next _ _ closed (.record _ { status := .running, attempt := 1, steps := 1 } rfl (Nat.zero_le 1)
    (by simp) (fun _ => rfl))
  have connected := Run.next _ _ recorded (.connect _)
  exact connected

private theorem longLine_length (count : Nat) : (longLine count).length = count := List.length_replicate

private theorem reading_poll {since : Nat} (run : Run 0 (reading count chunks since false 0 .tailing false))
    (more : kChunkBytes * (chunks + 1) ≤ count) (early : since + 1 < 4) :
    Run 0 (reading count (chunks + 1) (since + 1) false 0 .tailing false) := by
  have polled := Run.next _ _ run (.poll _ _ rfl rfl)
  simp only [reading, Stream.poll, Stream.pull, chunk_longLine more, drain_longLine, longLine_length, next_chunk,
    if_neg (not_le.mpr early), List.map_nil, List.append_nil] at polled
  exact polled

private theorem reading_last {since : Nat} (run : Run 0 (reading count chunks since false 0 .tailing false))
    (more : kChunkBytes * (chunks + 1) ≤ count) (late : since + 1 ≥ 4) :
    Run 0 (reading count (chunks + 1) 0 false 0 .checking false) := by
  have polled := Run.next _ _ run (.poll _ _ rfl rfl)
  simp only [reading, Stream.poll, Stream.pull, chunk_longLine more, drain_longLine, longLine_length, next_chunk,
    if_pos late, List.map_nil, List.append_nil] at polled
  exact polled

private theorem reading_check (run : Run 0 (reading count chunks 0 false 0 .checking false)) :
    Run 0 (reading count chunks 0 true 1 (.draining 0 []) true) := by
  have checked := Run.next _ _ run (.check _ _ rfl rfl)
  exact checked

private theorem reading_drain {guard : Nat} (run : Run 0 (reading count chunks 0 true 1 (.draining guard []) true))
    (more : kChunkBytes * (chunks + 1) ≤ count) (few : guard < 256) :
    Run 0 (reading count (chunks + 1) 0 true 1 (.draining (guard + 1) []) true) := by
  have some_more : longLine kChunkBytes ≠ [] := fun none => by
    have := congrArg List.length none
    rw [longLine_length] at this
    exact absurd this (by decide)
  have drained := Run.next _ _ run (.drain _ _ _ _ rfl rfl)
  simp only [reading, Stream.drain, Stream.pull, chunk_longLine more, drain_longLine, longLine_length, next_chunk,
    if_pos (And.intro few some_more), List.append_nil] at drained
  exact drained

private theorem reading_drains {guard rounds : Nat} (run : Run 0 (reading count chunks 0 true 1 (.draining guard []) true))
    (more : kChunkBytes * (chunks + rounds) ≤ count) (few : guard + rounds ≤ 256) :
    Run 0 (reading count (chunks + rounds) 0 true 1 (.draining (guard + rounds) []) true) := by
  induction rounds with
  | zero => exact run
  | succ rounds ih =>
    have step : kChunkBytes * (chunks + rounds) ≤ kChunkBytes * (chunks + (rounds + 1)) :=
      Nat.mul_le_mul_left _ (by omega)
    exact reading_drain (ih (step.trans more) (by omega)) more (show guard + rounds < 256 by omega)

/-- The world at the end of the stream, with what is on its way to the client. -/
private theorem reading_finish (run : Run 0 (reading count chunks 0 true 1 (.draining 256 []) true))
    (filled : longLine (kChunkBytes * chunks) ≠ []) :
    ∃ world, Run 0 world ∧ world.log = longLine count ∧ world.finished = true ∧
      world.received.map (·.data) = [clean (longLine (kChunkBytes * chunks))] := by
  have ended := Run.next _ _ run (.drain _ _ _ _ rfl rfl)
  simp only [reading, Stream.drain, Nat.lt_irrefl, false_and, if_false, Stream.finish, Stream.rest, if_neg filled,
    List.nil_append, List.map_cons, List.map_nil, List.cons_append] at ended
  have received := Run.next _ _ ended (.receive _ _ _ _ rfl rfl)
  have told := Run.next _ _ received (.receive _ _ _ _ rfl rfl)
  exact ⟨_, told, rfl, rfl, rfl⟩

/-- After 260 chunks the client is told that the step is done. -/
private theorem told_early (small : count < 2 ^ 64) (long : kChunkBytes * 260 ≤ count) :
    ∃ world, Run 0 world ∧ world.log = longLine count ∧ world.finished = true ∧
      world.received.map (·.data) = [clean (longLine (kChunkBytes * 260))] := by
  have less {chunks : Nat} (h : chunks ≤ 260) : kChunkBytes * chunks ≤ count := (Nat.mul_le_mul_left _ h).trans long
  have first := reading_poll (reading_start small) (less (by decide)) (by decide)
  have second := reading_poll first (less (by decide)) (by decide)
  have third := reading_poll second (less (by decide)) (by decide)
  have fourth := reading_last third (less (by decide)) (by decide)
  have drained := @reading_drains count 4 0 256 (reading_check fourth) (less (by decide)) (by decide)
  refine reading_finish drained fun none => ?_
  have length := congrArg List.length none
  rw [longLine_length] at length
  exact absurd length (by decide)

private theorem logLines_longLine (count : Nat) : logLines (longLine (count + 1)) = [longLine (count + 1)] := by
  induction count with
  | zero => rfl
  | succ count ih =>
    have shape : longLine (count + 1 + 1) = 'a'.toUInt8 :: longLine (count + 1) := rfl
    rw [shape, logLines, if_neg (by decide), ih]

/-- One byte more than the stream reads: the client is told that it is done
without that byte. -/
theorem stream_drops_rest : ¬ ∀ step world, Run step world → Delivered world := by
  intro holds
  obtain ⟨world, run, log, finished, received⟩ := @told_early (kChunkBytes * 260 + 1) (by decide) (Nat.le_succ _)
  have whole := (holds 0 world run).whole finished
  rw [received, log, logLines_longLine] at whole
  have lengths := congrArg (fun lines : List Bytes => lines.map List.length) whole
  have kept (count : Nat) : (withoutReturns (longLine count)).length = count := by
    have all : ∀ c ∈ longLine count, decide (c ≠ carriage) = true := fun c inside => by
      rw [List.eq_of_mem_replicate inside]
      rfl
    rw [withoutReturns, List.filter_eq_self.mpr all, longLine_length]
  rw [clean_of_plain (longLine_plain _)] at lengths
  simp only [List.map_cons, List.map_nil, kept, List.cons.injEq] at lengths
  omega

end CkGit.LogStream
