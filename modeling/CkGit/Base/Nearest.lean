import Mathlib.Order.Lattice
import Mathlib.Data.List.Induction

/-!
The nearest smaller value before each position of a list, and the decreasing
chain of values that answers it. Lists of what was read hold the newest first.
-/
namespace CkGit.Base

section Nearest

variable {α : Type} [LinearOrder α]

/-- The position of the last smaller value among those read so far. -/
def nearest (value : α) (earlier : List α) : Option Nat :=
  match earlier with
  | [] => none
  | last :: before => if last < value then some before.length else nearest value before

def nearestAfter (earlier values : List α) : List (Option Nat) :=
  match values with
  | [] => []
  | value :: rest => nearest value earlier :: nearestAfter (value :: earlier) rest

/-- For each value of a list, the position of the nearest smaller one before it. -/
def nearests (values : List α) : List (Option Nat) := nearestAfter [] values

/-- The values still smaller than every later one, with their positions. -/
def chain (earlier : List α) : List (α × Nat) :=
  match earlier with
  | [] => []
  | last :: before => (last, before.length) :: (chain before).dropWhile (fun link => last ≤ link.1)

theorem nearestAfter_append (earlier first second : List α) :
    nearestAfter earlier (first ++ second)
      = nearestAfter earlier first ++ nearestAfter (first.reverse ++ earlier) second := by
  induction first generalizing earlier with
  | nil => rfl
  | cons value rest ih => simp [nearestAfter, ih]

theorem nearests_snoc (values : List α) (value : α) :
    nearests (values ++ [value]) = nearests values ++ [nearest value values.reverse] := by
  simp [nearests, nearestAfter_append, nearestAfter]

@[simp] theorem nearestAfter_length (earlier values : List α) :
    (nearestAfter earlier values).length = values.length := by
  induction values generalizing earlier with
  | nil => rfl
  | cons value rest ih => simp [nearestAfter, ih]

@[simp] theorem nearests_length (values : List α) : (nearests values).length = values.length :=
  nearestAfter_length [] values

theorem nearest_lt {value : α} {earlier : List α} {position : Nat} (h : nearest value earlier = some position) :
    position < earlier.length := by
  induction earlier with
  | nil => cases h
  | cons last before ih =>
    simp only [nearest] at h
    split at h
    · cases h
      simp
    · have := ih h
      simp only [List.length_cons]
      omega

theorem nearests_inside {values : List α} {child : Nat} {above : Option Nat}
    (h : (nearests values)[child]? = some above) : child < values.length :=
  nearests_length values ▸ (List.getElem?_eq_some_iff.mp h).1

theorem nearests_snoc_old {values : List α} {value : α} {child : Nat} (inside : child < values.length) :
    (nearests (values ++ [value]))[child]? = (nearests values)[child]? := by
  rw [nearests_snoc, List.getElem?_append_left (by simpa using inside)]

theorem nearests_snoc_last (values : List α) (value : α) :
    (nearests (values ++ [value]))[values.length]? = some (nearest value values.reverse) := by
  rw [nearests_snoc, ← nearests_length values, List.getElem?_concat_length]

/-- The nearest smaller value stands before its value. -/
theorem nearests_lt {values : List α} {child parent : Nat}
    (h : (nearests values)[child]? = some (some parent)) : parent < child := by
  induction values using List.reverseRecOn with
  | nil => simp [nearests, nearestAfter] at h
  | append_singleton values value ih =>
    by_cases inside : child < values.length
    · exact ih (nearests_snoc_old inside ▸ h)
    · have bound := nearests_inside h
      have last : child = values.length := by
        simp only [List.length_append, List.length_singleton] at bound
        omega
      rw [last, nearests_snoc_last] at h
      simpa [last] using nearest_lt (Option.some.inj h)

theorem dropWhile_dropWhile {β : Type} {p q : β → Bool} (implied : ∀ x, p x → q x) (values : List β) :
    (values.dropWhile p).dropWhile q = values.dropWhile q := by
  induction values with
  | nil => rfl
  | cons value rest ih =>
    by_cases holds : p value
    · rw [List.dropWhile_cons_of_pos holds, List.dropWhile_cons_of_pos (implied value holds), ih]
    · rw [List.dropWhile_cons_of_neg holds]

/-- The nearest smaller value is the first of the chain below the new one. -/
theorem nearest_eq_chain (value : α) (earlier : List α) :
    nearest value earlier = ((chain earlier).dropWhile (fun link => value ≤ link.1)).head?.map (·.2) := by
  induction earlier with
  | nil => rfl
  | cons last before ih =>
    by_cases smaller : last < value
    · simp [nearest, chain, smaller, not_le.mpr smaller]
    · have least : value ≤ last := not_lt.mp smaller
      have implied (link : α × Nat) (h : decide (last ≤ link.1) = true) : decide (value ≤ link.1) = true :=
        decide_eq_true (least.trans (of_decide_eq_true h))
      rw [nearest, if_neg smaller, chain, List.dropWhile_cons_of_pos (by simpa using least),
        dropWhile_dropWhile implied, ih]

/-- A link of the chain stands at its position of the list. -/
theorem chain_position {earlier : List α} {link : α × Nat} (inside : link ∈ chain earlier) :
    earlier.reverse[link.2]? = some link.1 := by
  induction earlier with
  | nil => cases inside
  | cons last before ih =>
    rw [List.reverse_cons]
    cases inside with
    | head => simp
    | tail _ deeper =>
      have found := ih ((List.dropWhile_sublist _).subset deeper)
      have bound : link.2 < before.reverse.length := (List.getElem?_eq_some_iff.mp found).1
      rw [List.getElem?_append_left bound]
      exact found


/-- A link's nearest smaller value is the next link. -/
theorem chain_next {earlier : List α} {above below : List (α × Nat)} {link : α × Nat}
    (shape : chain earlier = above ++ link :: below) :
    (nearests earlier.reverse)[link.2]? = some (below.head?.map (·.2)) := by
  induction earlier generalizing above with
  | nil => simp [chain] at shape
  | cons last before ih =>
    rw [List.reverse_cons, nearests_snoc, List.reverse_reverse]
    rw [chain] at shape
    cases above with
    | nil =>
      obtain ⟨rfl, rfl⟩ := List.cons.inj shape
      rw [List.getElem?_append_right (by simp)]
      simp [nearest_eq_chain]
    | cons top rest =>
      obtain ⟨-, deeper⟩ := List.cons.inj shape
      obtain ⟨dropped, whole⟩ := List.dropWhile_suffix (fun link : α × Nat => decide (last ≤ link.1)) (l := chain before)
      rw [deeper] at whole
      change dropped ++ (rest ++ link :: below) = chain before at whole
      rw [← List.append_assoc] at whole
      have found := ih whole.symm
      have bound := (List.getElem?_eq_some_iff.mp found).1
      rw [List.getElem?_append_left bound]
      exact found

end Nearest

end CkGit.Base
