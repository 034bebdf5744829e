import Mathlib.Data.List.Basic

/-!
Patterns with one wildcard symbol: the texts a pattern denotes, and that a
matcher which returns only to the last wildcard misses none of them.
-/
namespace CkGit.Base

variable {α : Type*} {star : α} {pattern lit text : List α} {c : α}

/-- The text is the pattern with each wildcard replaced by some piece. -/
inductive Denotes (star : α) : List α → List α → Prop
  | nil : Denotes star [] []
  | literal {c : α} {pattern text : List α} (other : c ≠ star) (rest : Denotes star pattern text) :
      Denotes star (c :: pattern) (c :: text)
  | wildcard {pattern text : List α} (piece : List α) (rest : Denotes star pattern text) :
      Denotes star (star :: pattern) (piece ++ text)

namespace Denotes

@[simp] theorem nil_iff : Denotes star [] text ↔ text = [] := by
  constructor
  · intro h
    cases h
    rfl
  · rintro rfl
    exact .nil

theorem wildcard_iff : Denotes star (star :: pattern) text ↔ ∃ k ≤ text.length, Denotes star pattern (text.drop k) := by
  constructor
  · intro h
    cases h with
    | literal other => exact absurd rfl other
    | wildcard piece rest =>
      refine ⟨piece.length, by simp, ?_⟩
      rwa [List.drop_left]
  · rintro ⟨k, -, rest⟩
    rw [← List.take_append_drop k text]
    exact .wildcard _ rest

theorem literal_iff (other : c ≠ star) :
    Denotes star (c :: pattern) text ↔ ∃ rest, text = c :: rest ∧ Denotes star pattern rest := by
  constructor
  · intro h
    cases h with
    | literal _ rest => exact ⟨_, rfl, rest⟩
    | wildcard => exact absurd rfl other
  · rintro ⟨rest, rfl, h⟩
    exact .literal other h

/-- A wildcard at the start absorbs what comes before the text. -/
theorem absorb {k : ℕ} (h : Denotes star (star :: pattern) (text.drop k)) : Denotes star (star :: pattern) text := by
  obtain ⟨j, -, rest⟩ := wildcard_iff.mp h
  rw [List.drop_drop] at rest
  rw [← List.take_append_drop (k + j) text]
  exact .wildcard _ rest

theorem literals_iff (free : star ∉ lit) :
    Denotes star (lit ++ pattern) text ↔ ∃ rest, text = lit ++ rest ∧ Denotes star pattern rest := by
  induction lit generalizing text with
  | nil => simp
  | cons c lit ih =>
    have other : c ≠ star := fun same => free (same ▸ .head _)
    rw [List.cons_append, literal_iff other]
    constructor
    · rintro ⟨rest, rfl, h⟩
      obtain ⟨later, rfl, found⟩ := (ih fun member => free (.tail _ member)).mp h
      exact ⟨later, rfl, found⟩
    · rintro ⟨later, rfl, h⟩
      exact ⟨lit ++ later, rfl, (ih fun member => free (.tail _ member)).mpr ⟨later, rfl, h⟩⟩

theorem empty_iff : Denotes star pattern [] ↔ ∀ c ∈ pattern, c = star := by
  induction pattern with
  | nil => simp
  | cons c pattern ih =>
    rw [List.forall_mem_cons]
    by_cases wild : c = star
    · subst wild
      rw [wildcard_iff, ← ih]
      simp
    · simp [literal_iff wild, wild]

/-- The greedy choice: literals found at the start of a text, before a wildcard, need not be sought any later. -/
theorem greedy {k : ℕ} (free : star ∉ lit) (later : Denotes star (lit ++ star :: pattern) (List.drop k (lit ++ text))) :
    Denotes star (star :: pattern) text := by
  obtain ⟨rest, split, h⟩ := (literals_iff free).mp later
  have short := congrArg (List.drop lit.length) split
  rw [List.drop_left, List.drop_drop, Nat.add_comm, ← List.drop_drop, List.drop_left] at short
  exact absorb (short ▸ h)

end Denotes

end CkGit.Base
