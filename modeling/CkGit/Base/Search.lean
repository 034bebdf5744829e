import Mathlib.Data.List.TakeWhile
import CkGit.Base.Text

/-!
Searches in byte strings: the first byte that satisfies a test, the first
occurrence of a piece, and the last occurrence of a byte.
-/
namespace CkGit.Base

variable {p : UInt8 → Bool} {front rest text piece : Bytes} {byte : UInt8}

/-- The first byte at or after a position that satisfies a test. -/
def findFrom (p : UInt8 → Bool) (text : Bytes) (start : Nat) : Option Nat :=
  let stop := start + ((text.drop start).takeWhile fun byte => !p byte).length
  if stop < text.length then some stop else none

theorem findFrom_append (front rest : Bytes) :
    findFrom p (front ++ rest) front.length = (findFrom p rest 0).map (front.length + ·) := by
  unfold findFrom
  rw [List.drop_left, List.drop_zero, List.length_append, Nat.zero_add]
  by_cases inside : (rest.takeWhile fun byte => !p byte).length < rest.length
  · simp [inside]
  · simp [inside]

/-- The first match, with what stands before it. -/
theorem findFrom_zero {k : Nat} : findFrom p text 0 = some k ↔
    ∃ front byte rest, text = front ++ byte :: rest ∧ (∀ other ∈ front, p other = false) ∧ p byte = true
      ∧ front.length = k := by
  induction text generalizing k with
  | nil => simp [findFrom]
  | cons first later ih =>
    have step : findFrom p (first :: later) 0 = if p first then some 0 else (findFrom p later 0).map (· + 1) := by
      unfold findFrom
      cases hit : p first <;> simp [hit]
    rw [step]
    cases hit : p first with
    | true =>
      simp only [if_true, Option.some.injEq]
      constructor
      · rintro rfl
        exact ⟨[], first, later, rfl, nofun, hit, rfl⟩
      · rintro ⟨front, byte, rest, split, plain, -, rfl⟩
        cases front with
        | nil => rfl
        | cons other front =>
          have := plain other (.head _)
          rw [← (List.cons.inj split).1, hit] at this
          cases this
    | false =>
      simp only [Bool.false_eq_true, if_false, Option.map_eq_some_iff, ih]
      constructor
      · rintro ⟨_, ⟨front, byte, rest, rfl, plain, found, rfl⟩, rfl⟩
        exact ⟨first :: front, byte, rest, rfl, by simpa [hit] using plain, found, rfl⟩
      · rintro ⟨front, byte, rest, split, plain, found, rfl⟩
        cases front with
        | nil =>
          obtain ⟨rfl, rfl⟩ := List.cons.inj split
          rw [hit] at found
          cases found
        | cons other front =>
          obtain ⟨rfl, rfl⟩ := List.cons.inj split
          exact ⟨front.length, ⟨front, byte, rest, rfl, fun b member => plain b (.tail _ member), found, rfl⟩, rfl⟩

theorem findFrom_none : findFrom p text 0 = none ↔ ∀ byte ∈ text, p byte = false := by
  constructor
  · intro missing
    by_contra present
    push Not at present
    obtain ⟨byte, member, hit⟩ := present
    have all : text.takeWhile (fun byte => !p byte) = text := by
      unfold findFrom at missing
      dsimp only at missing
      split at missing
      · cases missing
      · next short =>
        have part := List.takeWhile_prefix (fun byte => !p byte) (l := text)
        exact part.eq_of_length_le (by simpa using short)
    have := List.mem_takeWhile_imp (all.symm ▸ member)
    simp [hit] at this
  · intro plain
    cases found : findFrom p text 0 with
    | none => rfl
    | some k =>
      obtain ⟨front, byte, rest, rfl, -, hit, -⟩ := findFrom_zero.mp found
      rw [plain byte (by simp)] at hit
      cases hit

theorem findFrom_le {k : Nat} (found : findFrom p text 0 = some k) (split : text = front ++ rest)
    (plain : ∀ byte ∈ front, p byte = false) : front.length ≤ k := by
  obtain ⟨free, stop, later, whole, -, hit, rfl⟩ := findFrom_zero.mp found
  by_contra short
  have shown : text = (free ++ [stop]) ++ later := by rw [whole, List.append_assoc]; rfl
  have part : free ++ [stop] <+: front := List.prefix_of_prefix_length_le (shown ▸ List.prefix_append _ later)
    (split ▸ List.prefix_append front rest) (by rw [List.length_append, List.length_singleton]; omega)
  have plain_stop := plain stop (part.subset (by simp))
  rw [hit] at plain_stop
  cases plain_stop

/-- The first position of a piece. -/
def findPiece (piece text : Bytes) : Option Nat :=
  match text with
  | [] => none
  | _ :: rest => if piece.isPrefixOf text then some 0 else (findPiece piece rest).map (· + 1)

/-- The first position of a piece at or after a position. -/
def findPieceFrom (piece text : Bytes) (start : Nat) : Option Nat := (findPiece piece (text.drop start)).map (start + ·)

theorem findPiece_long {k : Nat} (found : findPiece piece text = some k) : k + piece.length ≤ text.length := by
  induction text generalizing k with
  | nil => cases found
  | cons first rest ih =>
    rw [findPiece] at found
    split at found
    · next here =>
      cases found
      simpa using (List.isPrefixOf_iff_prefix.mp here).length_le
    · obtain ⟨j, later, rfl⟩ := Option.map_eq_some_iff.mp found
      have := ih later
      rw [List.length_cons]
      omega

/-- The first occurrence is the first one of any longer text. -/
theorem findPiece_append {k : Nat} (found : findPiece piece text = some k) (rest : Bytes) :
    findPiece piece (text ++ rest) = some k := by
  induction text generalizing k with
  | nil => cases found
  | cons first later ih =>
    have long := findPiece_long found
    have enough : piece.length ≤ (first :: later).length := Nat.le_trans (Nat.le_add_left _ _) long
    have same : piece.isPrefixOf (first :: (later ++ rest)) = piece.isPrefixOf (first :: later) := by
      rw [Bool.eq_iff_iff, List.isPrefixOf_iff_prefix, List.isPrefixOf_iff_prefix]
      exact ⟨fun longer => List.prefix_of_prefix_length_le longer (List.prefix_append (first :: later) rest) enough,
        fun short => short.trans (List.prefix_append (first :: later) rest)⟩
    rw [findPiece] at found
    rw [List.cons_append, findPiece, same]
    split at found
    · next here => rwa [if_pos here]
    · next other =>
      rw [if_neg other]
      obtain ⟨j, earlier, rfl⟩ := Option.map_eq_some_iff.mp found
      rw [ih earlier]
      rfl

theorem findPiece_split {k : Nat} (filled : piece ≠ []) (found : findPiece piece text = some k) :
    ∃ front rest, text = front ++ piece ++ rest ∧ front.length = k
      ∧ findPiece piece (front ++ piece) = some front.length := by
  induction text generalizing k with
  | nil => cases found
  | cons first later ih =>
    rw [findPiece] at found
    split at found
    · next here =>
      cases found
      obtain ⟨rest, whole⟩ := List.isPrefixOf_iff_prefix.mp here
      refine ⟨[], rest, whole.symm, rfl, ?_⟩
      cases piece with
      | nil => exact absurd rfl filled
      | cons c tail => simp [findPiece]
    · next other =>
      obtain ⟨j, earlier, rfl⟩ := Option.map_eq_some_iff.mp found
      obtain ⟨front, rest, rfl, rfl, inner⟩ := ih earlier
      refine ⟨first :: front, rest, rfl, rfl, ?_⟩
      have still : ¬piece.isPrefixOf (first :: (front ++ piece)) = true := by
        intro here
        rw [List.isPrefixOf_iff_prefix] at here
        refine other (List.isPrefixOf_iff_prefix.mpr (here.trans ?_))
        exact List.prefix_append (first :: (front ++ piece)) rest
      rw [List.cons_append, findPiece, if_neg still, inner]
      rfl

/-- A byte that cannot start the piece is passed over. -/
theorem findPiece_cons {c first : UInt8} {tail : Bytes} (other : first ≠ c) :
    findPiece (c :: tail) (first :: text) = (findPiece (c :: tail) text).map (· + 1) := by
  have differs : ¬(c :: tail).isPrefixOf (first :: text) = true := by
    intro here
    rw [List.isPrefixOf_iff_prefix] at here
    exact other (List.cons_prefix_cons.mp here).1.symm
  rw [findPiece, if_neg differs]

theorem findPiece_skip {c : UInt8} {tail : Bytes} (free : c ∉ front) :
    findPiece (c :: tail) (front ++ text) = (findPiece (c :: tail) text).map (front.length + ·) := by
  induction front with
  | nil => simp
  | cons first front ih =>
    have other : first ≠ c := fun same => free (same ▸ .head _)
    rw [List.cons_append, findPiece_cons other, ih fun member => free (.tail _ member), Option.map_map, List.length_cons]
    congr 1
    funext k
    show front.length + k + 1 = front.length + 1 + k
    omega

/-- The first occurrence after bytes that cannot start the piece. -/
theorem findPiece_of_free {c : UInt8} {tail : Bytes} (free : c ∉ front) :
    findPiece (c :: tail) (front ++ (c :: tail) ++ rest) = some front.length := by
  have here : findPiece (c :: tail) ((c :: tail) ++ rest) = some 0 := by
    rw [List.cons_append, findPiece, if_pos]
    exact List.isPrefixOf_iff_prefix.mpr (List.prefix_append (c :: tail) rest)
  rw [List.append_assoc, findPiece_skip free, here]
  rfl

/-- No later than where the piece stands. -/
theorem findPiece_le (filled : piece ≠ []) :
    ∃ k, findPiece piece (front ++ piece ++ rest) = some k ∧ k ≤ front.length := by
  induction front with
  | nil =>
    obtain ⟨c, tail, rfl⟩ := List.exists_cons_of_ne_nil filled
    refine ⟨0, ?_, Nat.le_refl 0⟩
    rw [List.nil_append, List.cons_append, findPiece, if_pos]
    exact List.isPrefixOf_iff_prefix.mpr (List.prefix_append (c :: tail) rest)
  | cons first front ih =>
    obtain ⟨k, found, small⟩ := ih
    rw [List.cons_append, List.cons_append, findPiece]
    split
    · exact ⟨0, rfl, Nat.zero_le _⟩
    · exact ⟨k + 1, by rw [found]; rfl, Nat.succ_le_succ small⟩

/-- What stands before and after the last such byte. -/
def splitAtLast (byte : UInt8) (text : Bytes) : Option (Bytes × Bytes) :=
  match text with
  | [] => none
  | first :: rest =>
    match splitAtLast byte rest with
    | some (before, after) => some (first :: before, after)
    | none => if first = byte then some ([], rest) else none

theorem splitAtLast_none (missing : splitAtLast byte text = none) : byte ∉ text := by
  induction text with
  | nil => exact nofun
  | cons first rest ih =>
    rw [splitAtLast] at missing
    split at missing
    · cases missing
    · next later =>
      split at missing
      · cases missing
      · next other =>
        rintro (_ | ⟨_, member⟩)
        · exact other rfl
        · exact ih later member

theorem splitAtLast_some {before after : Bytes} (found : splitAtLast byte text = some (before, after)) :
    text = before ++ byte :: after ∧ byte ∉ after := by
  induction text generalizing before with
  | nil => cases found
  | cons first rest ih =>
    rw [splitAtLast] at found
    split at found
    · next front back later =>
      cases found
      obtain ⟨rfl, free⟩ := ih later
      exact ⟨rfl, free⟩
    · next later =>
      split at found
      · next same =>
        cases found
        exact ⟨by rw [same]; rfl, splitAtLast_none later⟩
      · cases found

end CkGit.Base
