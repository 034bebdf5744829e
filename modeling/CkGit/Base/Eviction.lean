import Mathlib.Data.List.Basic

/-!
# Eviction in a fixed order

A pass over candidates that removes what may go while the state is over its
limit, and stops where it no longer is.
-/
namespace CkGit.Base.Eviction

variable {σ α : Type} (full : σ → Bool) (eligible : σ → α → Bool) (remove : σ → α → σ)

def visit (state : σ) (candidate : α) : σ :=
  if eligible state candidate then remove state candidate else state

def evict : List α → σ → σ
  | [], state => state
  | candidate :: rest, state =>
    if full state then evict rest (visit eligible remove state candidate) else state

variable {full eligible remove}

/-- What a removal over the limit keeps holds of the whole pass. -/
theorem evict_invariant {P : σ → Prop} {candidates : List α} {state : σ} (start : P state)
    (step : ∀ current candidate, candidate ∈ candidates → P current → full current →
      eligible current candidate → P (remove current candidate)) :
    P (evict full eligible remove candidates state) := by
  induction candidates generalizing state with
  | nil => exact start
  | cons candidate rest ih =>
    rw [evict]
    split
    · next exceeds =>
      refine ih ?_ fun current other member => step current other (List.mem_cons_of_mem _ member)
      unfold visit
      split
      · next allowed => exact step state candidate List.mem_cons_self start exceeds allowed
      · exact start
    · exact start

section
variable {r : α → α → Prop}
  (kept : ∀ state candidate other, ¬ eligible state other → ¬ eligible (remove state candidate) other)
  (spent : ∀ state candidate, ¬ eligible (remove state candidate) candidate)
include kept spent

omit kept in
theorem visit_spent (state : σ) (candidate : α) :
    ¬ eligible (visit eligible remove state candidate) candidate := by
  unfold visit
  split
  · exact spent state candidate
  · assumption

omit spent in
theorem visit_kept {state : σ} {other : α} (candidate : α) (out : ¬ eligible state other) :
    ¬ eligible (visit eligible remove state candidate) other := by
  unfold visit
  split
  · exact kept state candidate other out
  · exact out

omit spent in
theorem evict_kept {candidates : List α} {state : σ} {other : α} (out : ¬ eligible state other) :
    ¬ eligible (evict full eligible remove candidates state) other :=
  evict_invariant (P := fun current => ¬ eligible current other) out
    fun current candidate _ still _ _ => kept current candidate other still

/-- A pass ends within the limit or with nothing left to remove. -/
theorem evict_exhausts (candidates : List α) (state : σ) :
    full (evict full eligible remove candidates state) = false
      ∨ ∀ candidate ∈ candidates, ¬ eligible (evict full eligible remove candidates state) candidate := by
  induction candidates generalizing state with
  | nil => exact .inr fun candidate member => absurd member List.not_mem_nil
  | cons candidate rest ih =>
    rw [evict]
    split
    · refine (ih (visit eligible remove state candidate)).imp_right fun empty other member => ?_
      rcases List.mem_cons.mp member with rfl | member
      · exact evict_kept kept (visit_spent spent state other)
      · exact empty other member
    · next under => exact .inl (Bool.eq_false_iff.mpr under)

/-- In a pass over a sorted list a removal over the limit takes a candidate with no eligible one
before it. -/
theorem evict_ordered {P : σ → Prop} {candidates : List α} {state : σ}
    (sorted : candidates.Pairwise fun a b => ¬ r b a) (irrefl : ∀ a, ¬ r a a) (start : P state)
    (step : ∀ current candidate, candidate ∈ candidates → P current → full current →
      eligible current candidate → (∀ other ∈ candidates, r other candidate → ¬ eligible current other) →
      P (remove current candidate)) :
    P (evict full eligible remove candidates state) := by
  -- The candidates passed stay ineligible, and no candidate after the current one comes before it.
  suffices general : ∀ passed rest current, passed ++ rest = candidates →
      (∀ other ∈ passed, ¬ eligible current other) → P current →
      P (evict full eligible remove rest current) from
    general [] candidates state rfl (fun _ member => absurd member List.not_mem_nil) start
  intro passed rest
  induction rest generalizing passed with
  | nil => exact fun _ _ _ holds => holds
  | cons candidate rest ih =>
    intro current split_eq passed_out holds
    rw [evict]
    split
    · next exceeds =>
      refine ih (passed ++ [candidate]) _ (by simpa using split_eq) ?_ ?_
      · intro other member
        rcases List.mem_append.mp member with member | member
        · exact visit_kept kept candidate (passed_out other member)
        · rw [List.mem_singleton.mp member]
          exact visit_spent spent current candidate
      · unfold visit
        split
        · next allowed =>
          have member : candidate ∈ candidates := by
            rw [← split_eq]
            exact List.mem_append_right passed List.mem_cons_self
          refine step current candidate member holds exceeds allowed fun other found earlier => ?_
          rw [← split_eq, List.mem_append, List.mem_cons] at found
          rcases found with found | rfl | found
          · exact passed_out other found
          · exact absurd earlier (irrefl other)
          · rw [← split_eq] at sorted
            exact absurd earlier
              ((List.pairwise_cons.mp (List.pairwise_append.mp sorted).2.1).1 other found)
        · exact holds
    · exact holds

end

end CkGit.Base.Eviction
