import Mathlib.Logic.Basic

/-!
# Programs that can be cut off

A program over a state that other processes see: it reads the state, changes it
one write at a time, and returns or throws. A process may die between two
writes, so a program has crash states beside its result. `wp` is the weakest
precondition for both: what holds after every single write, and what holds when
the program returns or throws.
-/
namespace CkGit.Base

inductive Prog (σ ε α : Type) where
  | done (a : α)
  | throw (error : ε)
  | read (next : σ → Prog σ ε α)
  | write (change : σ → σ) (next : Prog σ ε α)

namespace Prog
variable {σ ε α β γ : Type}

protected def bind (p : Prog σ ε α) (f : α → Prog σ ε β) : Prog σ ε β :=
  match p with
  | done a => f a
  | throw error => throw error
  | read next => read fun s => (next s).bind f
  | write change next => write change (next.bind f)

instance : Monad (Prog σ ε) where
  pure := done
  bind := Prog.bind

/-- A value computed from the state. -/
def gets (f : σ → α) : Prog σ ε α := read fun s => done (f s)

/-- One write. -/
def modify (change : σ → σ) : Prog σ ε Unit := write change (done ())

def ofExcept (x : Except ε α) : Prog σ ε α :=
  match x with
  | .ok a => done a
  | .error error => throw error

/-- A value computed from the state, which may fail. -/
def reads (f : σ → Except ε α) : Prog σ ε α := read fun s => ofExcept (f s)

/-- The program under a condition. -/
def whenever (condition : Prop) [Decidable condition] (p : Prog σ ε Unit) : Prog σ ε Unit :=
  if condition then p else done ()

/-- Runs a program and hands on what it threw. -/
def attempt (p : Prog σ ε α) : Prog σ ε (Except ε α) :=
  match p with
  | done a => done (.ok a)
  | throw error => done (.error error)
  | read next => read fun s => (next s).attempt
  | write change next => write change next.attempt

/-- Best effort: whatever is thrown is dropped. -/
def bestEffort (p : Prog σ ε Unit) : Prog σ ε Unit := do
  let _ ← p.attempt
  return ()

/-- The body for each element in turn. -/
def forEach (items : List α) (body : α → Prog σ ε Unit) : Prog σ ε Unit :=
  match items with
  | [] => done ()
  | item :: rest => do
    body item
    forEach rest body

/-- The body for each element in turn, over an accumulator. -/
def accumulate (items : List α) (start : β) (body : β → α → Prog σ ε β) : Prog σ ε β :=
  match items with
  | [] => done start
  | item :: rest => do
    let next ← body start item
    accumulate rest next body

/-- The result of an undisturbed run and the state it leaves. -/
def exec (p : Prog σ ε α) (s : σ) : Except ε α × σ :=
  match p with
  | done a => (.ok a, s)
  | throw error => (.error error, s)
  | read next => (next s).exec s
  | write change next => next.exec (change s)

/-- The state after each write: where a crash may leave the system. -/
def crashes (p : Prog σ ε α) (s : σ) : List σ :=
  match p with
  | done _ => []
  | throw _ => []
  | read next => (next s).crashes s
  | write change next => change s :: next.crashes (change s)

/-- The writes an undisturbed run makes, in order, and its result. -/
def trail (p : Prog σ ε α) (s : σ) : List (σ → σ) × Except ε α :=
  match p with
  | done a => ([], .ok a)
  | throw error => ([], .error error)
  | read next => (next s).trail s
  | write change next =>
    let (changes, result) := next.trail (change s)
    (change :: changes, result)

def applyAll (changes : List (σ → σ)) (s : σ) : σ := changes.foldl (fun s change => change s) s

/-- The state a crash leaves after so many writes. -/
def cutAfter (p : Prog σ ε α) (writes : Nat) (s : σ) : σ :=
  applyAll ((p.trail s).1.take writes) s

@[simp] theorem applyAll_nil (s : σ) : applyAll [] s = s := rfl

@[simp] theorem applyAll_cons (change : σ → σ) (rest : List (σ → σ)) (s : σ) :
    applyAll (change :: rest) s = applyAll rest (change s) := rfl

theorem applyAll_append (front back : List (σ → σ)) (s : σ) :
    applyAll (front ++ back) s = applyAll back (applyAll front s) := List.foldl_append

theorem exec_trail (p : Prog σ ε α) (s : σ) :
    p.exec s = ((p.trail s).2, applyAll (p.trail s).1 s) := by
  induction p generalizing s with
  | done a => rfl
  | throw error => rfl
  | read next ih => exact ih s s
  | write change next ih => exact ih (change s)

theorem exec_bind (p : Prog σ ε α) (f : α → Prog σ ε β) (s : σ) :
    (p >>= f).exec s = match p.exec s with
      | (.ok a, t) => (f a).exec t
      | (.error error, t) => (.error error, t) := by
  show (Prog.bind p f).exec s = _
  induction p generalizing s with
  | done b => rfl
  | throw error => rfl
  | read next ih => exact ih s s
  | write change next ih => exact ih (change s)

theorem trail_bind (p : Prog σ ε α) (f : α → Prog σ ε β) (s : σ) :
    (p >>= f).trail s = match p.trail s with
      | (changes, .ok a) =>
        (changes ++ ((f a).trail (applyAll changes s)).1, ((f a).trail (applyAll changes s)).2)
      | (changes, .error error) => (changes, .error error) := by
  show (Prog.bind p f).trail s = _
  induction p generalizing s with
  | done b => rfl
  | throw error => rfl
  | read next ih => exact ih s s
  | write change next ih =>
    simp only [Prog.bind, trail, ih]
    cases next.trail (change s) with
    | mk changes result => cases result <;> rfl

theorem trail_ofExcept (x : Except ε α) (s : σ) : (ofExcept x).trail s = ([], x) := by
  cases x <;> rfl

theorem trail_reads (f : σ → Except ε α) (s : σ) : (reads f).trail s = ([], f s) :=
  trail_ofExcept (f s) s

theorem trail_gets (f : σ → α) (s : σ) : (gets f : Prog σ ε α).trail s = ([], .ok (f s)) := rfl

theorem trail_modify (change : σ → σ) (s : σ) :
    (modify change : Prog σ ε Unit).trail s = ([change], .ok ()) := rfl

theorem trail_forEach_modify (items : List α) (f : α → σ → σ) (s : σ) :
    (forEach items fun item => (modify (f item) : Prog σ ε Unit)).trail s
      = (items.map f, .ok ()) := by
  induction items generalizing s with
  | nil => rfl
  | cons item rest ih => simp only [forEach, trail_bind, trail_modify, ih, List.map_cons]; rfl

/-- From this state every write leads into `crash`, a return into `returned`
and a throw into `threw`. -/
def wp (p : Prog σ ε α) (crash : σ → Prop) (returned : α → σ → Prop) (threw : ε → σ → Prop)
    (s : σ) : Prop :=
  match p with
  | done a => returned a s
  | throw error => threw error s
  | read next => (next s).wp crash returned threw s
  | write change next => crash (change s) ∧ next.wp crash returned threw (change s)

variable {crash : σ → Prop} {returned : α → σ → Prop} {threw : ε → σ → Prop} {s : σ}

@[simp] theorem wp_pure (a : α) : (pure a : Prog σ ε α).wp crash returned threw s = returned a s :=
  rfl

@[simp] theorem wp_done (a : α) : (done a : Prog σ ε α).wp crash returned threw s = returned a s :=
  rfl

@[simp] theorem wp_throw (error : ε) :
    (throw error : Prog σ ε α).wp crash returned threw s = threw error s := rfl

@[simp] theorem wp_gets (f : σ → α) :
    (gets f : Prog σ ε α).wp crash returned threw s = returned (f s) s := rfl

@[simp] theorem wp_modify (change : σ → σ) {returned : Unit → σ → Prop} :
    (modify change : Prog σ ε Unit).wp crash returned threw s
      = (crash (change s) ∧ returned () (change s)) := rfl

theorem wp_ofExcept {x : Except ε α} {returned : α → σ → Prop}
    (succeeds : ∀ a, x = .ok a → returned a s) (fails : ∀ error, x = .error error → threw error s) :
    (ofExcept x).wp crash returned threw s := by
  cases x with
  | ok a => exact succeeds a rfl
  | error error => exact fails error rfl

theorem wp_reads {f : σ → Except ε α} {returned : α → σ → Prop}
    (succeeds : ∀ a, f s = .ok a → returned a s)
    (fails : ∀ error, f s = .error error → threw error s) :
    (reads f).wp crash returned threw s :=
  wp_ofExcept succeeds fails

theorem wp_whenever {condition : Prop} [Decidable condition] {p : Prog σ ε Unit}
    {returned : Unit → σ → Prop}
    (holds : condition → p.wp crash returned threw s) (otherwise : ¬ condition → returned () s) :
    (whenever condition p).wp crash returned threw s := by
  unfold whenever
  split
  · exact holds ‹_›
  · exact otherwise ‹_›

@[simp] theorem wp_bind (p : Prog σ ε α) (f : α → Prog σ ε β) {returned : β → σ → Prop} :
    (p >>= f).wp crash returned threw s
      = p.wp crash (fun a => (f a).wp crash returned threw) threw s := by
  show (Prog.bind p f).wp crash returned threw s = _
  induction p generalizing s with
  | done a => rfl
  | throw error => rfl
  | read next ih => exact ih s
  | write change next ih => simp only [Prog.bind, wp, ih]

@[simp] theorem wp_attempt (p : Prog σ ε α) {returned : Except ε α → σ → Prop} :
    p.attempt.wp crash returned threw s
      = p.wp crash (fun a => returned (.ok a)) (fun error => returned (.error error)) s := by
  induction p generalizing s with
  | done a => rfl
  | throw error => rfl
  | read next ih => exact ih s
  | write change next ih => simp only [attempt, wp, ih]

@[simp] theorem wp_bestEffort (p : Prog σ ε Unit) {returned : Unit → σ → Prop} :
    p.bestEffort.wp crash returned threw s = p.wp crash returned (fun _ => returned ()) s := by
  rw [bestEffort, wp_bind, wp_attempt]
  rfl

/-- Consequence. -/
theorem wp_mono {p : Prog σ ε α} {crash' : σ → Prop} {returned' : α → σ → Prop}
    {threw' : ε → σ → Prop} (h : p.wp crash returned threw s)
    (crashed : ∀ s, crash s → crash' s) (done : ∀ a s, returned a s → returned' a s)
    (failed : ∀ error s, threw error s → threw' error s) : p.wp crash' returned' threw' s := by
  induction p generalizing s with
  | done a => exact done a s h
  | throw error => exact failed error s h
  | read next ih => exact ih s h
  | write change next ih => exact ⟨crashed _ h.1, ih h.2⟩

/-- Two postconditions proved apart. -/
theorem wp_and {p : Prog σ ε α} {crash' : σ → Prop} {returned' : α → σ → Prop}
    {threw' : ε → σ → Prop} (left : p.wp crash returned threw s)
    (right : p.wp crash' returned' threw' s) :
    p.wp (fun s => crash s ∧ crash' s) (fun a s => returned a s ∧ returned' a s)
      (fun error s => threw error s ∧ threw' error s) s := by
  induction p generalizing s with
  | done a => exact ⟨left, right⟩
  | throw error => exact ⟨left, right⟩
  | read next ih => exact ih s left right
  | write change next ih => exact ⟨⟨left.1, right.1⟩, ih left.2 right.2⟩

/-- Loop rule: the body keeps the invariant at every element. -/
theorem wp_forEach {items : List α} {body : α → Prog σ ε Unit} {invariant : σ → Prop}
    (each : ∀ item ∈ items, ∀ s, invariant s →
      (body item).wp crash (fun _ => invariant) threw s)
    (start : invariant s) : (forEach items body).wp crash (fun _ => invariant) threw s := by
  induction items generalizing s with
  | nil => exact start
  | cons item rest ih =>
    simp only [forEach, wp_bind]
    apply wp_mono (each item List.mem_cons_self s start)
    · exact fun _ kept => kept
    · intro _ t kept
      exact ih (fun other inside => each other (List.mem_cons_of_mem _ inside)) kept
    · exact fun _ _ kept => kept

/-- Loop rule with the elements already handled. -/
theorem wp_forEach_done {items : List α} {body : α → Prog σ ε Unit} {invariant : List α → σ → Prop}
    (each : ∀ earlier item later, items = earlier ++ item :: later → ∀ s, invariant earlier s →
      (body item).wp crash (fun _ => invariant (earlier ++ [item])) threw s)
    (start : invariant [] s) :
    (forEach items body).wp crash (fun _ => invariant items) threw s := by
  have loop : ∀ earlier later, items = earlier ++ later → ∀ s, invariant earlier s →
      (forEach later body).wp crash (fun _ => invariant items) threw s := by
    intro earlier later
    induction later generalizing earlier with
    | nil =>
      intro split s kept
      rw [List.append_nil] at split
      subst split
      exact kept
    | cons item rest ih =>
      intro split s kept
      simp only [forEach, wp_bind]
      apply wp_mono (each earlier item rest split s kept)
      · exact fun _ kept => kept
      · intro _ t next
        apply ih (earlier ++ [item])
        · simpa using split
        · exact next
      · exact fun _ _ kept => kept
  exact loop [] items rfl s start

theorem wp_crashes {p : Prog σ ε α} (h : p.wp crash returned threw s) :
    ∀ t ∈ p.crashes s, crash t := by
  induction p generalizing s with
  | done a => simp [crashes]
  | throw error => simp [crashes]
  | read next ih => exact ih s h
  | write change next ih =>
    intro t member
    rcases List.mem_cons.mp member with rfl | later
    · exact h.1
    · exact ih h.2 t later

/-- What holds of every crash state is all a crash may show. -/
theorem wp_of_crashes {p : Prog σ ε α} (h : ∀ t ∈ p.crashes s, crash t) :
    p.wp crash (fun _ _ => True) (fun _ _ => True) s := by
  induction p generalizing s with
  | done a => trivial
  | throw error => trivial
  | read next ih => exact ih s h
  | write change next ih => exact ⟨h _ List.mem_cons_self, ih fun t member => h t (List.mem_cons_of_mem _ member)⟩

theorem cutAfter_crashes (p : Prog σ ε α) (writes : Nat) (s : σ) :
    p.cutAfter writes s = s ∨ p.cutAfter writes s ∈ p.crashes s := by
  induction p generalizing writes s with
  | done a => exact .inl (congrArg (applyAll · s) List.take_nil)
  | throw error => exact .inl (congrArg (applyAll · s) List.take_nil)
  | read next ih => exact ih s writes s
  | write change next ih =>
    cases writes with
    | zero => exact .inl rfl
    | succ writes =>
      refine .inr ?_
      rcases ih writes (change s) with same | later
      · exact List.mem_cons.mpr (.inl same)
      · exact List.mem_cons_of_mem _ later

theorem crashes_bind {p : Prog σ ε α} {f : α → Prog σ ε β} {a : α} {t u : σ} (run : p.exec s = (.ok a, t))
    (member : u ∈ (f a).crashes t) : u ∈ (p >>= f).crashes s := by
  show u ∈ (Prog.bind p f).crashes s
  induction p generalizing s with
  | done b =>
    cases run
    exact member
  | throw error => cases run
  | read next ih => exact ih s run
  | write change next ih => exact List.mem_cons_of_mem _ (ih run)

theorem exec_of_wp {p : Prog σ ε Unit} {t : σ} (h : p.wp crash (fun _ after => after = t) (fun _ _ => False) s) :
    p.exec s = (.ok (), t) := by
  induction p generalizing s with
  | done a => exact congrArg (Prod.mk _) h
  | throw error => exact h.elim
  | read next ih => exact ih s h
  | write change next ih => exact ih h.2

theorem wp_exec {p : Prog σ ε α} (h : p.wp crash returned threw s) :
    match p.exec s with
    | (.ok a, t) => returned a t
    | (.error error, t) => threw error t := by
  induction p generalizing s with
  | done a => exact h
  | throw error => exact h
  | read next ih => exact ih s h
  | write change next ih => exact ih h.2

/-- A program keeps an invariant when every state it shows satisfies it. -/
def Keeps (invariant : σ → Prop) (p : Prog σ ε α) : Prop :=
  ∀ s, invariant s → p.wp invariant (fun _ => invariant) (fun _ => invariant) s

section
variable {invariant : σ → Prop} {p : Prog σ ε α}

theorem Keeps.pure (a : α) : Keeps invariant (pure a : Prog σ ε α) := fun _ held => held

theorem Keeps.gets (f : σ → α) : Keeps invariant (gets f : Prog σ ε α) := fun _ held => held

theorem Keeps.modify {change : σ → σ} (kept : ∀ s, invariant s → invariant (change s)) :
    Keeps invariant (modify change : Prog σ ε Unit) := fun s held => ⟨kept s held, kept s held⟩

theorem Keeps.ofExcept (x : Except ε α) : Keeps invariant (ofExcept x) :=
  fun _ held => wp_ofExcept (fun _ _ => held) (fun _ _ => held)

theorem Keeps.reads (f : σ → Except ε α) : Keeps invariant (reads f) := fun s held => Keeps.ofExcept (f s) s held

theorem Keeps.bind {next : α → Prog σ ε β} (first : Keeps invariant p)
    (later : ∀ a, Keeps invariant (next a)) : Keeps invariant (p >>= next) := by
  intro s held
  rw [wp_bind]
  exact wp_mono (first s held) (fun _ kept => kept) (fun a t kept => later a t kept) (fun _ _ kept => kept)

theorem Keeps.whenever {condition : Prop} [Decidable condition] {p : Prog σ ε Unit}
    (h : Keeps invariant p) : Keeps invariant (whenever condition p) :=
  fun s held => wp_whenever (fun _ => h s held) (fun _ => held)

/-- What is dropped keeps the invariant too, so nothing is thrown. -/
theorem Keeps.bestEffort {p : Prog σ ε Unit} (h : Keeps invariant p) (held : invariant s) :
    p.bestEffort.wp invariant (fun _ => invariant) threw s := by
  rw [wp_bestEffort]
  exact h s held

theorem Keeps.forEach {items : List β} {body : β → Prog σ ε Unit} (each : ∀ item, Keeps invariant (body item)) :
    Keeps invariant (forEach items body) := fun _ held => wp_forEach (fun item _ => each item) held

theorem Keeps.accumulate {items : List γ} {start : β} {body : β → γ → Prog σ ε β}
    (each : ∀ held item, Keeps invariant (body held item)) : Keeps invariant (accumulate items start body) := by
  induction items generalizing start with
  | nil => exact Keeps.pure _
  | cons item rest ih => exact (each start item).bind fun _ => ih

end

theorem Keeps.exec {invariant : σ → Prop} {p : Prog σ ε α} (h : Keeps invariant p)
    (start : invariant s) : invariant (p.exec s).2 := by
  have result := wp_exec (h s start)
  cases outcome : p.exec s with
  | mk r t =>
    rw [outcome] at result
    cases r <;> exact result

end Prog
end CkGit.Base
