import Mathlib.Data.List.Forall2

/-!
Reading fallible code: a chain of checks in `Except` succeeds exactly when each
of its steps does.
-/
namespace CkGit.Base

variable {ε α β : Type}

/-- Stops with the error when the input is bad. -/
def rejectIf (bad : Prop) [Decidable bad] (error : ε) : Except ε Unit :=
  if bad then .error error else .ok ()

theorem bind_ok {x : Except ε α} {f : α → Except ε β} {b : β} :
    (x >>= f) = .ok b ↔ ∃ a, x = .ok a ∧ f a = .ok b := by
  cases x <;> simp [bind, Except.bind]

theorem bind_error {x : Except ε α} {f : α → Except ε β} {error : ε} :
    (x >>= f) = .error error ↔ x = .error error ∨ ∃ a, x = .ok a ∧ f a = .error error := by
  cases x <;> simp [bind, Except.bind]

theorem map_ok {x : Except ε α} {f : α → β} {b : β} :
    x.map f = .ok b ↔ ∃ a, x = .ok a ∧ f a = b := by
  cases x <;> simp [Except.map]

theorem pure_ok {a b : α} : (pure a : Except ε α) = .ok b ↔ a = b := by
  simp [pure, Except.pure]

@[simp] theorem rejectIf_ok {bad : Prop} [Decidable bad] {error : ε} {u : Unit} :
    rejectIf bad error = .ok u ↔ ¬ bad := by
  by_cases h : bad <;> simp [rejectIf, h]

theorem rejectIf_error {bad : Prop} [Decidable bad] {error other : ε} :
    rejectIf bad error = .error other ↔ bad ∧ error = other := by
  by_cases h : bad <;> simp [rejectIf, h]

theorem ok_of_toOption {x : Except ε α} {a : α} (h : x.toOption = some a) : x = .ok a := by
  cases x with
  | error e => cases h
  | ok b => exact congrArg Except.ok (Option.some.inj h)

/-- A list is mapped when every element is. -/
theorem mapM_ok {f : α → Except ε β} {items : List α} {results : List β}
    (h : items.mapM f = .ok results) :
    List.Forall₂ (fun item result => f item = .ok result) items results := by
  induction items generalizing results with
  | nil =>
    simp only [List.mapM_nil, pure_ok] at h
    subst h
    exact .nil
  | cons item rest ih =>
    simp only [List.mapM_cons, bind_ok, pure_ok] at h
    obtain ⟨first, done, others, later, rfl⟩ := h
    exact .cons done (ih later)

theorem mapM_length {f : α → Except ε β} {items : List α} {results : List β}
    (h : items.mapM f = .ok results) : results.length = items.length :=
  (mapM_ok h).length_eq.symm

theorem mapM_of_forall₂ {f : α → Except ε β} {items : List α} {results : List β}
    (h : List.Forall₂ (fun item result => f item = .ok result) items results) :
    items.mapM f = .ok results := by
  induction h with
  | nil => rfl
  | cons done _ ih =>
    rw [List.mapM_cons, bind_ok]
    exact ⟨_, done, bind_ok.mpr ⟨_, ih, rfl⟩⟩

theorem mapM_mem {f : α → Except ε β} {items : List α} {results : List β} (h : items.mapM f = .ok results)
    {item : α} (member : item ∈ items) : ∃ result ∈ results, f item = .ok result := by
  induction mapM_ok h with
  | nil => cases member
  | cons done rest ih =>
    rcases List.mem_cons.mp member with rfl | later
    · exact ⟨_, List.mem_cons_self, done⟩
    · obtain ⟨result, found, same⟩ := ih (mapM_of_forall₂ rest) later
      exact ⟨result, List.mem_cons_of_mem _ found, same⟩

theorem mapM_origin {f : α → Except ε β} {items : List α} {results : List β} (h : items.mapM f = .ok results)
    {result : β} (member : result ∈ results) : ∃ item ∈ items, f item = .ok result := by
  induction mapM_ok h with
  | nil => cases member
  | cons done rest ih =>
    rcases List.mem_cons.mp member with rfl | later
    · exact ⟨_, List.mem_cons_self, done⟩
    · obtain ⟨item, found, same⟩ := ih (mapM_of_forall₂ rest) later
      exact ⟨item, List.mem_cons_of_mem _ found, same⟩

theorem mapM_succeeds {f : α → Except ε β} {items : List α} (each : ∀ item ∈ items, ∃ result, f item = .ok result) :
    ∃ results, items.mapM f = .ok results := by
  induction items with
  | nil => exact ⟨[], rfl⟩
  | cons item rest ih =>
    obtain ⟨first, done⟩ := each item List.mem_cons_self
    obtain ⟨later, mapped⟩ := ih fun other member => each other (List.mem_cons_of_mem _ member)
    refine ⟨first :: later, ?_⟩
    rw [List.mapM_cons, bind_ok]
    exact ⟨first, done, bind_ok.mpr ⟨later, mapped, rfl⟩⟩

/-- What every successful call gives holds of every result. -/
theorem mapM_forall {f : α → Except ε β} {items : List α} {results : List β} {P : β → Prop}
    (each : ∀ item result, f item = .ok result → P result) (h : items.mapM f = .ok results) :
    ∀ result ∈ results, P result := by
  intro result member
  obtain ⟨item, _, done⟩ := mapM_origin h member
  exact each item result done

end CkGit.Base
