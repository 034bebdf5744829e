/-!
# Outcomes of programs that may raise an error

What a program yields, or what it raises, on its own and over a state.
-/
namespace CkGit.Base.Outcome

variable {ε σ α β γ : Type} {raised : ε → Prop}

/-- A value with this property, or an error of this kind. -/
def Yields (raised : ε → Prop) (outcome : Except ε α) (p : α → Prop) : Prop :=
  match outcome with
  | .ok value => p value
  | .error error => raised error

theorem Yields.pure {value : α} {p : α → Prop} (holds : p value) :
    Yields raised (pure value) p := holds

theorem Yields.mono {outcome : Except ε α} {p other : α → Prop} (h : Yields raised outcome p)
    (weaker : ∀ value, p value → other value) : Yields raised outcome other := by
  cases outcome with
  | ok value => exact weaker value h
  | error error => exact h

theorem Yields.bind {outcome : Except ε α} {next : α → Except ε β} {m : α → Prop}
    {p : β → Prop} (first : Yields raised outcome m)
    (rest : ∀ value, m value → Yields raised (next value) p) :
    Yields raised (outcome >>= next) p := by
  cases outcome with
  | ok value => exact rest value first
  | error error => exact first

/-- The program, run in a state. -/
def Meets (raised : ε → Prop) (program : StateT σ (Except ε) α) (state : σ) (p : α → σ → Prop) :
    Prop :=
  Yields raised (program.run state) fun result => p result.1 result.2

theorem Meets.pure {value : α} {state : σ} {p : α → σ → Prop} (holds : p value state) :
    Meets raised (pure value) state p := holds

theorem Meets.bind_modify {change : σ → σ} {next : PUnit → StateT σ (Except ε) β} {state : σ}
    {p : β → σ → Prop} (rest : Meets raised (next ⟨⟩) (change state) p) :
    Meets raised (modify change >>= next) state p := rest

theorem Meets.bind_get {next : σ → StateT σ (Except ε) β} {state : σ} {p : β → σ → Prop}
    (rest : Meets raised (next state) state p) : Meets raised (StateT.get >>= next) state p := rest

theorem Meets.modify {change : σ → σ} {state : σ} {p : PUnit → σ → Prop}
    (holds : p ⟨⟩ (change state)) : Meets raised (modify change) state p := holds

theorem Meets.lift {outcome : Except ε α} {state : σ} {p : α → σ → Prop}
    (h : Yields raised outcome fun value => p value state) :
    Meets raised (liftM outcome) state p := by
  cases outcome with
  | ok value => exact h
  | error error => exact h

theorem Meets.mono {program : StateT σ (Except ε) α} {state : σ} {p other : α → σ → Prop}
    (h : Meets raised program state p)
    (weaker : ∀ value after, p value after → other value after) :
    Meets raised program state other :=
  Yields.mono h fun result => weaker result.1 result.2

theorem Meets.bind {program : StateT σ (Except ε) α} {next : α → StateT σ (Except ε) β} {state : σ}
    {m : α → σ → Prop} {p : β → σ → Prop} (first : Meets raised program state m)
    (rest : ∀ value after, m value after → Meets raised (next value) after p) :
    Meets raised (program >>= next) state p :=
  Yields.bind first fun result holds => rest result.1 result.2 holds

/-- A step that leaves the state alone. -/
theorem Meets.bind_lift {outcome : Except ε α} {next : α → StateT σ (Except ε) β} {state : σ}
    {m : α → Prop} {p : β → σ → Prop} (first : Yields raised outcome m)
    (rest : ∀ value, m value → Meets raised (next value) state p) :
    Meets raised (liftM outcome >>= next) state p := by
  refine Meets.bind (m := fun value after => m value ∧ state = after)
    (Meets.lift (first.mono fun _ holds => ⟨holds, rfl⟩)) ?_
  rintro value _ ⟨holds, rfl⟩
  exact rest value holds

/-- What each turn keeps of the items it has done holds of all items after a loop over a list. -/
theorem Meets.foldlM {P : List α → β → σ → Prop} {turn : β → α → StateT σ (Except ε) β} {done items : List α}
    {start : β} {state : σ} (begins : P done start state)
    (step : ∀ done seen item current, P done seen current →
      Meets raised (turn seen item) current (P (done ++ [item]))) :
    Meets raised (items.foldlM turn start) state (P (done ++ items)) := by
  induction items generalizing done start state with
  | nil => rwa [← List.append_nil done] at begins
  | cons item rest ih =>
    rw [List.foldlM_cons, List.append_cons]
    exact (step done start item state begins).bind fun seen current holds => ih holds

theorem Yields.foldlM {P : List α → β → Prop} {turn : β → α → Except ε β} {done items : List α} {start : β}
    (begins : P done start)
    (step : ∀ done seen item, P done seen → Yields raised (turn seen item) (P (done ++ [item]))) :
    Yields raised (items.foldlM turn start) (P (done ++ items)) := by
  induction items generalizing done start with
  | nil => rwa [← List.append_nil done] at begins
  | cons item rest ih =>
    rw [List.foldlM_cons, List.append_cons]
    exact (step done start item begins).bind fun seen holds => ih holds

end CkGit.Base.Outcome
