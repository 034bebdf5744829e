import CkGit.Base.Prog

/-!
# Programs among other processes

Between two steps of a program other processes change the state, within what
`env` allows them. `amid` is the weakest precondition for every interleaving:
each write of the program is `allowed` where it happens, and the result holds
whatever the others do after it.
-/
namespace CkGit.Base.Prog
variable {σ ε α β γ : Type}

/-- One step on the state as it is when the step happens. -/
inductive Advances : Prog σ ε α → σ → Prog σ ε α → σ → Prop where
  | read {next : σ → Prog σ ε α} {s : σ} : Advances (read next) s (next s) s
  | write {change : σ → σ} {next : Prog σ ε α} {s : σ} : Advances (write change next) s next (change s)

def amid (env allowed : σ → σ → Prop) (p : Prog σ ε α) (returned : α → σ → Prop) (threw : ε → σ → Prop)
    (s : σ) : Prop :=
  match p with
  | done a => ∀ t, env s t → returned a t
  | throw error => ∀ t, env s t → threw error t
  | read next => ∀ t, env s t → (next t).amid env allowed returned threw t
  | write change next => ∀ t, env s t → allowed t (change t) ∧ next.amid env allowed returned threw (change t)

/-- What the others do leaves the property. -/
def Stable (env : σ → σ → Prop) (property : σ → Prop) : Prop := ∀ s t, env s t → property s → property t

section
variable {env allowed : σ → σ → Prop} {p : Prog σ ε α} {returned : α → σ → Prop} {threw : ε → σ → Prop} {s t : σ}

theorem amid_mono {returned' : α → σ → Prop} {threw' : ε → σ → Prop} (h : p.amid env allowed returned threw s)
    (done : ∀ a s, returned a s → returned' a s) (failed : ∀ error s, threw error s → threw' error s) :
    p.amid env allowed returned' threw' s := by
  induction p generalizing s with
  | done a => exact fun t other => done a t (h t other)
  | throw error => exact fun t other => failed error t (h t other)
  | read next ih => exact fun t other => ih t (h t other)
  | write change next ih => exact fun t other => ⟨(h t other).1, ih (h t other).2⟩

/-- The others may go on. -/
theorem amid_env (trans : ∀ s t u, env s t → env t u → env s u) (h : p.amid env allowed returned threw s)
    (other : env s t) : p.amid env allowed returned threw t := by
  cases p with
  | done a => exact fun u more => h u (trans s t u other more)
  | throw error => exact fun u more => h u (trans s t u other more)
  | read next => exact fun u more => h u (trans s t u other more)
  | write change next => exact fun u more => h u (trans s t u other more)

/-- A step of the program is allowed and leaves what remains to be shown. -/
theorem amid_advances {q : Prog σ ε α} {u : σ} (h : p.amid env allowed returned threw s) (other : env s t)
    (step : Advances p t q u) : (u = t ∨ allowed t u) ∧ q.amid env allowed returned threw u := by
  cases step with
  | read => exact ⟨.inl rfl, h t other⟩
  | write => exact ⟨.inr (h t other).1, (h t other).2⟩

theorem amid_bind {f : α → Prog σ ε β} {returned : β → σ → Prop}
    (h : p.amid env allowed (fun a => (f a).amid env allowed returned threw) threw s)
    (reflexive : ∀ s, env s s) : (p >>= f).amid env allowed returned threw s := by
  show (Prog.bind p f).amid env allowed returned threw s
  induction p generalizing s with
  | done a => exact h s (reflexive s)
  | throw error => exact h
  | read next ih => exact fun t other => ih t (h t other)
  | write change next ih => exact fun t other => ⟨(h t other).1, ih (h t other).2⟩

theorem amid_attempt {returned : Except ε α → σ → Prop}
    (h : p.amid env allowed (fun a => returned (.ok a)) (fun error => returned (.error error)) s) :
    p.attempt.amid env allowed returned threw s := by
  induction p generalizing s with
  | done a => exact h
  | throw error => exact h
  | read next ih => exact fun t other => ih t (h t other)
  | write change next ih => exact fun t other => ⟨(h t other).1, ih (h t other).2⟩

end

/-- From every state with the first property the program runs to the second, or throws in a state with
the third; all of them outlast the others. -/
structure Among (env allowed : σ → σ → Prop) (before : σ → Prop) (p : Prog σ ε α) (after : α → σ → Prop)
    (failed : σ → Prop) : Prop where
  runs : ∀ s, before s → p.amid env allowed after (fun _ => failed) s

namespace Among
variable {env allowed : σ → σ → Prop} {before failed : σ → Prop} {p : Prog σ ε α} {after : α → σ → Prop}

theorem mono {before' failed' : σ → Prop} {after' : α → σ → Prop} (h : Among env allowed before p after failed)
    (start : ∀ s, before' s → before s) (done : ∀ a s, after a s → after' a s) (fails : ∀ s, failed s → failed' s) :
    Among env allowed before' p after' failed' :=
  ⟨fun s held => amid_mono (h.runs s (start s held)) done fun _ => fails⟩

/-- What is known of the values read so far. -/
theorem given {fact : Prop} (h : fact → Among env allowed before p after failed) :
    Among env allowed (fun s => fact ∧ before s) p after failed :=
  ⟨fun s held => (h held.1).runs s held.2⟩

theorem done {a : α} (stable : Stable env before) (holds : ∀ s, before s → after a s) :
    Among env allowed before (Prog.done a : Prog σ ε α) after failed :=
  ⟨fun s held t other => holds t (stable s t other held)⟩

theorem throw {error : ε} (stable : Stable env before) (holds : ∀ s, before s → failed s) :
    Among env allowed before (Prog.throw error : Prog σ ε α) after failed :=
  ⟨fun s held t other => holds t (stable s t other held)⟩

theorem gets {f : σ → α} (stable : Stable env before) (lasting : ∀ a, Stable env (after a))
    (holds : ∀ s, before s → after (f s) s) : Among env allowed before (Prog.gets f : Prog σ ε α) after failed :=
  ⟨fun s held t other u more => lasting _ t u more (holds t (stable s t other held))⟩

theorem modify {change : σ → σ} {after : Unit → σ → Prop} (stable : Stable env before)
    (lasting : Stable env (after ())) (holds : ∀ s, before s → allowed s (change s) ∧ after () (change s)) :
    Among env allowed before (Prog.modify change : Prog σ ε Unit) after failed :=
  ⟨fun s held t other =>
    have made := holds t (stable s t other held)
    ⟨made.1, fun u more => lasting _ u more made.2⟩⟩

theorem ofExcept {x : Except ε α} (stable : Stable env before) (holds : ∀ a, x = .ok a → ∀ s, before s → after a s)
    (fails : ∀ s, before s → failed s) : Among env allowed before (Prog.ofExcept x) after failed := by
  cases x with
  | ok a => exact done stable (holds a rfl)
  | error error => exact throw stable fails

theorem bind {f : α → Prog σ ε β} {m : α → σ → Prop} {final : β → σ → Prop} (reflexive : ∀ s, env s s)
    (first : Among env allowed before p m failed)
    (rest : ∀ a, Among env allowed (m a) (f a) final failed) :
    Among env allowed before (p >>= f) final failed :=
  ⟨fun s held => amid_bind (amid_mono (first.runs s held) (fun a t => (rest a).runs t) fun _ _ failed => failed)
    reflexive⟩

/-- A step that keeps what holds. -/
theorem next {f : α → Prog σ ε β} {final : β → σ → Prop} (reflexive : ∀ s, env s s)
    (first : Among env allowed before p (fun _ => before) failed)
    (rest : ∀ a, Among env allowed before (f a) final failed) : Among env allowed before (p >>= f) final failed :=
  bind reflexive first rest

theorem reads {f : σ → Except ε α} (stable : Stable env before) (lasting : ∀ a, Stable env (after a))
    (holds : ∀ s a, before s → f s = .ok a → after a s) (fails : ∀ s, before s → failed s) :
    Among env allowed before (Prog.reads f) after failed :=
  ⟨fun s held t other => by
    have there := stable s t other held
    show (Prog.ofExcept (f t)).amid env allowed after (fun _ => failed) t
    cases read : f t with
    | ok a =>
      intro u more
      exact lasting a t u more (holds t a there read)
    | error error =>
      intro u more
      exact fails u (stable t u more there)⟩

/-- Loop rule: the body keeps the invariant at every element. -/
theorem accumulate (reflexive : ∀ s, env s s) {items : List γ} {start : β} {body : β → γ → Prog σ ε β}
    {invariant : β → σ → Prop} (stable : ∀ b, Stable env (invariant b))
    (each : ∀ b, ∀ item ∈ items, Among env allowed (invariant b) (body b item) invariant failed) :
    Among env allowed (invariant start) (accumulate items start body) invariant failed := by
  induction items generalizing start with
  | nil => exact done (stable start) fun _ held => held
  | cons item rest ih =>
    apply bind reflexive (each start item List.mem_cons_self)
    exact fun b => ih fun b other inside => each b other (List.mem_cons_of_mem item inside)

theorem forEach (reflexive : ∀ s, env s s) {items : List γ} {body : γ → Prog σ ε Unit}
    (stable : Stable env before)
    (each : ∀ item ∈ items, Among env allowed before (body item) (fun _ => before) failed) :
    Among env allowed before (forEach items body) (fun _ => before) failed := by
  induction items with
  | nil => exact done stable fun _ held => held
  | cons item rest ih =>
    apply next reflexive (each item List.mem_cons_self)
    exact fun _ => ih fun other inside => each other (List.mem_cons_of_mem item inside)

theorem attempt {after : Except ε α → σ → Prop}
    (h : Among env allowed before p (fun a => after (.ok a)) fun s => ∀ error, after (.error error) s) :
    Among env allowed before p.attempt after failed :=
  ⟨fun s held => amid_attempt (amid_mono (h.runs s held) (fun _ _ reached => reached)
    fun error _ reached => reached error)⟩

end Among

@[simp] theorem exec_gets (f : σ → α) (s : σ) : (gets f : Prog σ ε α).exec s = (.ok (f s), s) := rfl

/-- Each write is a step of the relation, from whatever state it happens in. Nothing the program has read
enters, so this holds in every interleaving and at every crash. -/
def Guarantees (step : σ → σ → Prop) (p : Prog σ ε α) : Prop :=
  match p with
  | done _ => True
  | throw _ => True
  | read next => ∀ s, (next s).Guarantees step
  | write change next => (∀ s, step s (change s)) ∧ next.Guarantees step

namespace Guarantees
variable {step : σ → σ → Prop} {p : Prog σ ε α}

theorem pure (a : α) : Guarantees step (pure a : Prog σ ε α) := trivial

theorem throw (error : ε) : Guarantees step (throw error : Prog σ ε α) := trivial

theorem gets (f : σ → α) : Guarantees step (gets f : Prog σ ε α) := fun _ => trivial

theorem modify {change : σ → σ} (h : ∀ s, step s (change s)) :
    Guarantees step (modify change : Prog σ ε Unit) := ⟨h, trivial⟩

theorem ofExcept (x : Except ε α) : Guarantees step (ofExcept x) := by
  cases x <;> trivial

theorem reads (f : σ → Except ε α) : Guarantees step (reads f) := fun s => ofExcept (f s)

theorem bind {f : α → Prog σ ε β} (first : Guarantees step p) (rest : ∀ a, Guarantees step (f a)) :
    Guarantees step (p >>= f) := by
  show Guarantees step (Prog.bind p f)
  induction p with
  | done a => exact rest a
  | throw error => trivial
  | read next ih => exact fun s => ih s (first s)
  | write change next ih => exact ⟨first.1, ih first.2⟩

theorem whenever {condition : Prop} [Decidable condition] {p : Prog σ ε Unit} (h : Guarantees step p) :
    Guarantees step (whenever condition p) := by
  unfold Prog.whenever
  split
  · exact h
  · trivial

theorem attempt (h : Guarantees step p) : Guarantees step p.attempt := by
  induction p with
  | done a => trivial
  | throw error => trivial
  | read next ih => exact fun s => ih s (h s)
  | write change next ih => exact ⟨h.1, ih h.2⟩

theorem bestEffort {p : Prog σ ε Unit} (h : Guarantees step p) : Guarantees step p.bestEffort :=
  h.attempt.bind fun _ => pure ()

theorem forEach {items : List β} {body : β → Prog σ ε Unit} (each : ∀ item, Guarantees step (body item)) :
    Guarantees step (forEach items body) := by
  induction items with
  | nil => trivial
  | cons item rest ih => exact (each item).bind fun _ => ih

theorem accumulate {items : List γ} {start : β} {body : β → γ → Prog σ ε β}
    (each : ∀ b item, Guarantees step (body b item)) : Guarantees step (accumulate items start body) := by
  induction items generalizing start with
  | nil => trivial
  | cons item rest ih => exact (each start item).bind fun _ => ih

theorem mono {step' : σ → σ → Prop} (h : Guarantees step p) (weaker : ∀ s t, step s t → step' s t) :
    Guarantees step' p := by
  induction p with
  | done a => trivial
  | throw error => trivial
  | read next ih => exact fun s => ih s (h s)
  | write change next ih => exact ⟨fun s => weaker _ _ (h.1 s), ih h.2⟩

/-- Whatever outlasts the others and the program's own steps is kept in every interleaving. -/
theorem among {env allowed : σ → σ → Prop} {invariant : σ → Prop} (h : Guarantees step p)
    (stable : Stable env invariant) (kept : Stable step invariant)
    (legal : ∀ s t, invariant s → step s t → allowed s t) : Among env allowed invariant p (fun _ =>
      invariant) invariant := by
  constructor
  induction p with
  | done a => exact fun s held t other => stable s t other held
  | throw error => exact fun s held t other => stable s t other held
  | read next ih => exact fun s held t other => ih t (h t) t (stable s t other held)
  | write change next ih =>
    intro s held t other
    have now := stable s t other held
    exact ⟨legal _ _ now (h.1 t), ih h.2 _ (kept _ _ (h.1 t) now)⟩

/-- Without others, such a property is kept too. -/
theorem keeps {invariant : σ → Prop} (h : Guarantees step p) (kept : Stable step invariant) :
    Keeps invariant p := by
  intro s held
  induction p generalizing s with
  | done a => exact held
  | throw error => exact held
  | read next ih => exact ih s (h s) s held
  | write change next ih =>
    have now := kept _ _ (h.1 s) held
    exact ⟨now, ih h.2 _ now⟩

end Guarantees

end CkGit.Base.Prog
