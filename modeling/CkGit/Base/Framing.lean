import Mathlib.Logic.Basic

/-!
# Framed streams

A reader looks at the front of a buffer and finds a frame, something that can
never become one, or too little. What more bytes cannot change of its answers is
all that is needed for a stream to give the same frames however it is cut.
-/
namespace CkGit.Base

/-- What the front of a buffer is. -/
inductive Front (α φ : Type) where
  | wait
  | bad
  | frame (frame : φ) (rest : List α)

structure Reader (α φ : Type) where
  read : List α → Front α φ
  shrinks : ∀ {input frame rest}, read input = .frame frame rest → rest.length < input.length
  frame_append : ∀ {input frame rest}, read input = .frame frame rest →
    ∀ more, read (input ++ more) = .frame frame (rest ++ more)
  bad_append : ∀ {input}, read input = .bad → ∀ more, read (input ++ more) = .bad

namespace Reader
variable {α φ : Type} (reader : Reader α φ)

/-- The frames of an input and what is left to wait with; nothing is left of an input that
goes bad. -/
inductive Splits : List α → List φ → Option (List α) → Prop where
  | wait {input} (read : reader.read input = .wait) : Splits input [] (some input)
  | bad {input} (read : reader.read input = .bad) : Splits input [] none
  | frame {input frame rest frames left} (read : reader.read input = .frame frame rest)
      (later : Splits rest frames left) : Splits input (frame :: frames) left

variable {reader} {input : List α} {frames : List φ} {left : Option (List α)}

theorem Splits.of_read (input : List α) : ∃ frames left, reader.Splits input frames left := by
  induction size : input.length using Nat.strongRecOn generalizing input with
  | ind n ih =>
    cases read : reader.read input with
    | wait => exact ⟨[], some input, .wait read⟩
    | bad => exact ⟨[], none, .bad read⟩
    | frame frame rest =>
      obtain ⟨frames, left, later⟩ := ih rest.length (size ▸ reader.shrinks read) rest rfl
      exact ⟨frame :: frames, left, .frame read later⟩

theorem Splits.unique (h : reader.Splits input frames left) {other : List φ} {last : Option (List α)}
    (g : reader.Splits input other last) : frames = other ∧ left = last := by
  induction h generalizing other last with
  | wait read =>
    cases g with
    | wait => exact ⟨rfl, rfl⟩
    | bad again => rw [read] at again; cases again
    | frame again => rw [read] at again; cases again
  | bad read =>
    cases g with
    | wait again => rw [read] at again; cases again
    | bad => exact ⟨rfl, rfl⟩
    | frame again => rw [read] at again; cases again
  | frame read _ ih =>
    cases g with
    | wait again => rw [read] at again; cases again
    | bad again => rw [read] at again; cases again
    | frame again later =>
      rw [read] at again
      cases again
      obtain ⟨rfl, rfl⟩ := ih later
      exact ⟨rfl, rfl⟩

/-- What is left waits. -/
theorem Splits.waits {rest : List α} (h : reader.Splits input frames left) (kept : left = some rest) :
    reader.read rest = .wait := by
  induction h with
  | wait read =>
    cases kept
    exact read
  | bad => cases kept
  | frame _ _ ih => exact ih kept

/-- Reading goes on from what was left. -/
theorem Splits.resume {rest more : List α} {later : List φ} {last : Option (List α)}
    (h : reader.Splits input frames left) (kept : left = some rest)
    (g : reader.Splits (rest ++ more) later last) : reader.Splits (input ++ more) (frames ++ later) last := by
  induction h with
  | wait =>
    cases kept
    exact g
  | bad => cases kept
  | frame read _ ih => exact .frame (reader.frame_append read more) (ih kept)

/-- What went bad stays bad. -/
theorem Splits.stuck (h : reader.Splits input frames left) (gone : left = none) (more : List α) :
    reader.Splits (input ++ more) frames none := by
  induction h with
  | wait => cases gone
  | bad read => exact .bad (reader.bad_append read more)
  | frame read _ ih => exact .frame (reader.frame_append read more) (ih gone)

/-- An encoding of the frames that are valid, the one the reader takes for them. -/
structure Encoding (reader : Reader α φ) where
  Valid : φ → Prop
  encode : φ → List α
  reads : ∀ {frame}, Valid frame → ∀ more, reader.read (encode frame ++ more) = .frame frame more
  only : ∀ {input frame rest}, reader.read input = .frame frame rest →
    Valid frame ∧ input = encode frame ++ rest
  nothing : reader.read [] = .wait

variable (code : Encoding reader)

namespace Encoding

def encodeAll (frames : List φ) : List α := frames.flatMap code.encode

theorem splits_encodeAll {frames : List φ} (valid : ∀ frame ∈ frames, code.Valid frame) :
    reader.Splits (code.encodeAll frames) frames (some []) := by
  induction frames with
  | nil => exact .wait code.nothing
  | cons frame rest ih =>
    refine .frame (code.reads (valid frame List.mem_cons_self) _) (ih fun other member => ?_)
    exact valid other (List.mem_cons_of_mem _ member)

/-- The input is its frames and a tail. -/
theorem tail_of_splits (h : reader.Splits input frames left) :
    ∃ tail, input = code.encodeAll frames ++ tail ∧ (∀ frame ∈ frames, code.Valid frame)
      ∧ (∀ rest, left = some rest → tail = rest) ∧ (left = none → reader.read tail = .bad) := by
  induction h with
  | @wait input read => exact ⟨input, rfl, nofun, fun rest same => Option.some.inj same, nofun⟩
  | @bad input read => exact ⟨input, rfl, nofun, nofun, fun _ => read⟩
  | @frame input frame rest frames left read _ ih =>
    obtain ⟨tail, whole, valid, waits, spoiled⟩ := ih
    obtain ⟨first, split⟩ := code.only read
    refine ⟨tail, ?_, ?_, waits, spoiled⟩
    · rw [split, whole, encodeAll, encodeAll, List.flatMap_cons, List.append_assoc]
    · intro other member
      rcases List.mem_cons.mp member with rfl | later
      · exact first
      · exact valid other later

theorem encodeAll_take_prefix (frames : List φ) (count : Nat) :
    code.encodeAll (frames.take count) <+: code.encodeAll frames := by
  refine ⟨code.encodeAll (frames.drop count), ?_⟩
  rw [encodeAll, encodeAll, encodeAll, ← List.flatMap_append, List.take_append_drop]

/-- The frames of an input begin with any valid ones it begins with. -/
theorem splits_prefix {first : List φ} (valid : ∀ frame ∈ first, code.Valid frame)
    (h : reader.Splits input frames left) (starts : code.encodeAll first <+: input) : first <+: frames := by
  obtain ⟨more, rfl⟩ := starts
  obtain ⟨later, last, g⟩ := @Splits.of_read _ _ reader ([] ++ more)
  obtain ⟨rfl, -⟩ := h.unique ((code.splits_encodeAll valid).resume rfl g)
  exact List.prefix_append _ _

/-- A part of an encoding gives the frames that lie in it whole and waits, with nothing exactly at
the end of a frame. -/
theorem splits_part {whole : List φ} {more : List α} (valid : ∀ frame ∈ whole, code.Valid frame)
    (part : input ++ more = code.encodeAll whole) :
    ∃ frames rest, reader.Splits input frames (some rest) ∧ frames <+: whole
      ∧ (∀ count ≤ whole.length, count ≤ frames.length ↔ code.encodeAll (whole.take count) <+: input)
      ∧ (rest = [] ↔ ∃ count, input = code.encodeAll (whole.take count)) := by
  have all := code.splits_encodeAll valid
  rw [← part] at all
  obtain ⟨frames, left, h⟩ := @Splits.of_read _ _ reader input
  cases left with
  | none => cases (all.unique (h.stuck rfl more)).2
  | some rest =>
    obtain ⟨later, last, g⟩ := @Splits.of_read _ _ reader (rest ++ more)
    obtain ⟨rfl, -⟩ := all.unique (h.resume rfl g)
    obtain ⟨tail, split, -, ends, -⟩ := code.tail_of_splits h
    obtain rfl := ends rest rfl
    have some_valid : ∀ count, ∀ frame ∈ (frames ++ later).take count, code.Valid frame :=
      fun count frame member => valid frame (List.mem_of_mem_take member)
    refine ⟨frames, tail, h, List.prefix_append _ _, fun count few => ⟨fun inside => ?_, fun starts => ?_⟩, ?_⟩
    · rw [List.take_append_of_le_length inside]
      exact (code.encodeAll_take_prefix frames count).trans ⟨tail, split.symm⟩
    · have found := (code.splits_prefix (some_valid count) h starts).length_le
      rwa [List.length_take_of_le few] at found
    · constructor
      · rintro rfl
        rw [List.append_nil] at split
        exact ⟨frames.length, by rw [List.take_left, split]⟩
      · rintro ⟨count, whole_frames⟩
        have settled := code.splits_encodeAll (some_valid count)
        rw [← whole_frames] at settled
        exact Option.some.inj (h.unique settled).2

end Encoding
end Reader
end CkGit.Base
