import Mathlib.Logic.Relation

/-!
Inevitability in a transition system: whatever steps are taken, a goal is
reached after finitely many of them, and no state before it is stuck. The
ranking rule derives it from an invariant and a decreasing measure; the same
measure yields a reachable state in which no step is possible.
-/
namespace CkGit.Base
open Relation

variable {σ : Type} {step : σ → σ → Prop} {goal invariant : σ → Prop}

/-- Every path from the state reaches the goal after finitely many steps. -/
inductive Inevitable (step : σ → σ → Prop) (goal : σ → Prop) : σ → Prop where
  | now {s : σ} (reached : goal s) : Inevitable step goal s
  | later {s : σ} (enabled : ∃ t, step s t)
      (always : ∀ t, step s t → Inevitable step goal t) : Inevitable step goal s

/-- A property every step keeps holds along every path. -/
theorem path_preserves {s t : σ} (preserved : ∀ s t, invariant s → step s t → invariant t)
    (path : ReflTransGen step s t) (start : invariant s) : invariant t := by
  induction path with
  | refl => exact start
  | tail _ last ih => exact preserved _ _ ih last

/-- Ranking rule: the measure drops at every step the invariant allows, and a
stuck state meets the goal. -/
theorem Inevitable.of_measure (measure : σ → Nat)
    (preserved : ∀ s t, invariant s → step s t → invariant t)
    (decreases : ∀ s t, invariant s → step s t → measure t < measure s)
    (stuck : ∀ s, invariant s → (∀ t, ¬ step s t) → goal s)
    {s : σ} (start : invariant s) : Inevitable step goal s := by
  induction h : measure s using Nat.strongRecOn generalizing s with
  | ind n ih =>
    by_cases enabled : ∃ t, step s t
    · refine .later enabled fun t taken => ?_
      exact ih (measure t) (h ▸ decreases s t start taken) (preserved s t start taken) rfl
    · exact .now (stuck s start fun t taken => enabled ⟨t, taken⟩)

/-- Under the ranking rule's premises a stuck state is reachable. -/
theorem exists_stuck (measure : σ → Nat)
    (preserved : ∀ s t, invariant s → step s t → invariant t)
    (decreases : ∀ s t, invariant s → step s t → measure t < measure s)
    {s : σ} (start : invariant s) :
    ∃ t, ReflTransGen step s t ∧ invariant t ∧ ∀ u, ¬ step t u := by
  induction h : measure s using Nat.strongRecOn generalizing s with
  | ind n ih =>
    by_cases enabled : ∃ t, step s t
    · obtain ⟨t, taken⟩ := enabled
      obtain ⟨u, path, kept, final⟩ :=
        ih (measure t) (h ▸ decreases s t start taken) (preserved s t start taken) rfl
      exact ⟨u, .head taken path, kept, final⟩
    · exact ⟨s, .refl, start, fun t taken => enabled ⟨t, taken⟩⟩

/-- What is inevitable is reachable. -/
theorem Inevitable.reaches {s : σ} (h : Inevitable step goal s) :
    ∃ t, ReflTransGen step s t ∧ goal t := by
  induction h with
  | now reached => exact ⟨_, .refl, reached⟩
  | later enabled _ ih =>
    obtain ⟨t, taken⟩ := enabled
    obtain ⟨u, path, reached⟩ := ih t taken
    exact ⟨u, .head taken path, reached⟩

end CkGit.Base
