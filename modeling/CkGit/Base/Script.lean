import Mathlib.Logic.Basic

/-!
# Scripts of operations

Processes that share a state and act on it one operation at a time. A script
names the operation and goes on with its reply; what an operation does to the
state is told apart, so that scripts interleave and stop at any point. A
protocol says which operations a process may ask for, from a note of what it
did so far; a script that follows it does so whatever replies it gets.
-/
namespace CkGit.Base

inductive Script (Op : Type → Type) (α : Type) : Type 1 where
  | done (a : α)
  | call {β : Type} (op : Op β) (next : β → Script Op α)

namespace Script
variable {Op : Type → Type} {α β : Type}

protected def bind (script : Script Op α) (f : α → Script Op β) : Script Op β :=
  match script with
  | done a => f a
  | call op next => call op fun reply => (next reply).bind f

instance : Monad (Script Op) where
  pure := done
  bind := Script.bind

/-- One operation. -/
def ask (op : Op α) : Script Op α := call op done

/-- The body for each element in turn, over an accumulator. -/
def accumulate {γ : Type} (items : List γ) (start : α) (body : α → γ → Script Op α) : Script Op α :=
  match items with
  | [] => done start
  | item :: rest => do
    let next ← body start item
    accumulate rest next body

/-- An operation and its reply. -/
structure Asked (Op : Type → Type) where
  Reply : Type
  op : Op Reply
  reply : Reply

/-- What a script asked and was replied so far, and what it returned once it has. -/
inductive Runs : Script Op α → List (Asked Op) → Option α → Prop where
  | returned (a : α) : Runs (done a) [] (some a)
  | so_far (script : Script Op α) : Runs script [] none
  | asked {β : Type} {op : Op β} {next : β → Script Op α} (reply : β) {trace : List (Asked Op)}
      {result : Option α} (later : Runs (next reply) trace result) :
      Runs (call op next) (⟨β, op, reply⟩ :: trace) result

/-- The script against an environment that answers every operation. -/
def play {Env : Type} (answer : {β : Type} → Op β → Env → β × Env) (script : Script Op α) (env : Env) :
    List (Asked Op) × α :=
  match script with
  | done a => ([], a)
  | call op next =>
    let (reply, after) := answer op env
    let (trace, a) := play answer (next reply) after
    (⟨_, op, reply⟩ :: trace, a)

theorem play_runs {Env : Type} (answer : {β : Type} → Op β → Env → β × Env) (script : Script Op α) (env : Env) :
    script.Runs (script.play answer env).1 (some (script.play answer env).2) := by
  induction script generalizing env with
  | done a => exact .returned a
  | call op next ih => exact .asked _ (ih _ _)

end Script

structure Protocol (Op : Type → Type) (Note : Type) where
  allowed : {β : Type} → Note → Op β → Prop
  after : {β : Type} → Note → Op β → β → Note

namespace Protocol
variable {Op : Type → Type} {Note α β γ : Type} (protocol : Protocol Op Note)

/-- The script keeps to the protocol and returns with the postcondition. -/
def Follows (script : Script Op α) (note : Note) (post : α → Note → Prop) : Prop :=
  match script with
  | .done a => post a note
  | .call op next =>
    protocol.allowed note op ∧ ∀ reply, Follows (next reply) (protocol.after note op reply) post

/-- The note after these operations. -/
def noteAfter (note : Note) (trace : List (Script.Asked Op)) : Note :=
  trace.foldl (fun note asked => protocol.after note asked.op asked.reply) note

/-- Every operation was allowed when it was asked for. -/
def Accepts (note : Note) (trace : List (Script.Asked Op)) : Prop :=
  match trace with
  | [] => True
  | asked :: rest =>
    protocol.allowed note asked.op ∧ Accepts (protocol.after note asked.op asked.reply) rest

variable {protocol} {note : Note} {post : α → Note → Prop}

/-- Whatever a script that follows the protocol is replied, it asks for what is allowed and
returns with the postcondition. -/
theorem follows_runs {script : Script Op α} {trace : List (Script.Asked Op)} {result : Option α}
    (h : protocol.Follows script note post) (run : script.Runs trace result) :
    protocol.Accepts note trace ∧ ∀ a, result = some a → post a (protocol.noteAfter note trace) := by
  induction run generalizing note with
  | returned a => exact ⟨trivial, fun _ same => Option.some.inj same ▸ h⟩
  | so_far => exact ⟨trivial, nofun⟩
  | asked reply _ ih =>
    obtain ⟨accepted, returned⟩ := ih (h.2 reply)
    exact ⟨⟨h.1, accepted⟩, returned⟩

theorem follows_pure {a : α} (h : post a note) : protocol.Follows (pure a) note post := h

theorem follows_ask {op : Op α} (allowed : protocol.allowed note op)
    (h : ∀ reply, post reply (protocol.after note op reply)) :
    protocol.Follows (.ask op) note post := ⟨allowed, h⟩

theorem follows_bind {script : Script Op α} {f : α → Script Op β} {post : β → Note → Prop}
    (h : protocol.Follows script note fun a after => protocol.Follows (f a) after post) :
    protocol.Follows (script >>= f) note post := by
  induction script generalizing note with
  | done a => exact h
  | call op next ih => exact ⟨h.1, fun reply => ih reply (h.2 reply)⟩

theorem follows_mono {script : Script Op α} {weaker : α → Note → Prop}
    (h : protocol.Follows script note post) (weaken : ∀ a note, post a note → weaker a note) :
    protocol.Follows script note weaker := by
  induction script generalizing note with
  | done a => exact weaken a note h
  | call op next ih => exact ⟨h.1, fun reply => ih reply (h.2 reply)⟩

/-- A loop keeps what its body keeps. -/
theorem follows_accumulate {items : List γ} {start : α} {body : α → γ → Script Op α}
    {kept : Note → Prop} (first : kept note)
    (h : ∀ held item note, kept note → protocol.Follows (body held item) note fun _ => kept) :
    protocol.Follows (.accumulate items start body) note fun _ => kept := by
  induction items generalizing start note with
  | nil => exact first
  | cons item rest ih =>
    apply follows_bind
    exact follows_mono (h start item note first) fun next after holds => ih holds

theorem follows_throw {ε : Type} {error : ε} {post : Except ε α → Note → Prop} (h : post (.error error) note) :
    protocol.Follows (throw error : ExceptT ε (Script Op) α).run note post := h

theorem follows_return {ε : Type} {a : α} {post : Except ε α → Note → Prop} (h : post (.ok a) note) :
    protocol.Follows (pure a : ExceptT ε (Script Op) α).run note post := h

theorem follows_lift {ε : Type} {script : Script Op α} {post : Except ε α → Note → Prop}
    (h : protocol.Follows script note fun a => post (.ok a)) :
    protocol.Follows (ExceptT.lift script).run note post :=
  follows_bind h

/-- What is thrown passes by the rest. -/
theorem follows_andThen {ε : Type} {action : ExceptT ε (Script Op) α} {next : α → ExceptT ε (Script Op) β}
    {post : Except ε β → Note → Prop}
    (h : protocol.Follows action.run note fun result after =>
      (∀ a, result = .ok a → protocol.Follows (next a).run after post)
        ∧ ∀ error, result = .error error → post (.error error) after) :
    protocol.Follows (action >>= next).run note post := by
  apply follows_bind
  apply follows_mono h
  intro result after continues
  cases result with
  | ok a => exact continues.1 a rfl
  | error error => exact continues.2 error rfl

end Protocol

/-- A process: what it noted and what it still runs. -/
structure Process (Op : Type → Type) (Note : Type) where
  note : Note
  rest : Script Op Unit

structure Interleaved (Op : Type → Type) (Note σ : Type) where
  store : σ
  processes : List (Process Op Note)

namespace Interleaved
variable {Op : Type → Type} {Note σ : Type}

/-- The next operation of one process; a finished one stays. -/
def advance (protocol : Protocol Op Note) (perform : {β : Type} → Op β → σ → β × σ) (index : Nat)
    (system : Interleaved Op Note σ) : Interleaved Op Note σ :=
  match system.processes[index]? with
  | some ⟨note, .call op next⟩ =>
    let (reply, store) := perform op system.store
    { store, processes := system.processes.set index ⟨protocol.after note op reply, next reply⟩ }
  | _ => system

/-- What the next operation of one process has to meet. -/
def NextMeets (meets : Note → {β : Type} → Op β → Prop) (index : Nat) (system : Interleaved Op Note σ) : Prop :=
  match system.processes[index]? with
  | some ⟨note, .call op _⟩ => meets note op
  | _ => True

theorem nextMeets_iff {meets : Note → {β : Type} → Op β → Prop} {index : Nat} {system : Interleaved Op Note σ} :
    system.NextMeets meets index ↔ ∀ note (β : Type) (op : Op β) next,
      system.processes[index]? = some ⟨note, .call op next⟩ → meets note op := by
  unfold NextMeets
  constructor
  · intro holds note β op next running
    rw [running] at holds
    exact holds
  · intro each
    split
    · next running => exact each _ _ _ _ running
    · trivial

instance (meets : Note → {β : Type} → Op β → Prop) [∀ note (β : Type) (op : Op β), Decidable (meets note op)]
    (index : Nat) (system : Interleaved Op Note σ) : Decidable (system.NextMeets meets index) := by
  unfold NextMeets
  split <;> infer_instance

/-- A process joins. -/
def start (process : Process Op Note) (system : Interleaved Op Note σ) : Interleaved Op Note σ :=
  { system with processes := system.processes ++ [process] }

/-- A process dies. -/
def crash (index : Nat) (system : Interleaved Op Note σ) : Interleaved Op Note σ :=
  { system with processes := system.processes.eraseIdx index }

end Interleaved

/-- At most one process holds the lock, and only while it is locked. -/
structure Exclusive {Op : Type → Type} {Note : Type} (holds : Note → Prop) (locked : Bool)
    (processes : List (Process Op Note)) : Prop where
  alone : ∀ (i j : Nat) (first second : Process Op Note), processes[i]? = some first → processes[j]? = some second →
    holds first.note → holds second.note → i = j
  held : ∀ process ∈ processes, holds process.note → locked = true

namespace Exclusive
variable {Op : Type → Type} {Note : Type} {holds : Note → Prop} {locked : Bool}
  {processes : List (Process Op Note)} {index : Nat} {old new : Process Op Note}

/-- What is at a place after one process is replaced. -/
theorem set_cases {i : Nat} {process : Process Op Note}
    (there : (processes.set index new)[i]? = some process) :
    (i = index ∧ process = new) ∨ (i ≠ index ∧ processes[i]? = some process) := by
  by_cases same : i = index
  · subst same
    rw [List.getElem?_set] at there
    simp only [if_true] at there
    split at there
    · exact .inl ⟨rfl, (Option.some.inj there).symm⟩
    · cases there
  · rw [List.getElem?_set_ne (Ne.symm same)] at there
    exact .inr ⟨same, there⟩

/-- A process goes on without taking the lock. -/
theorem keep (h : Exclusive holds locked processes) (running : processes[index]? = some old)
    (less : holds new.note → holds old.note) : Exclusive holds locked (processes.set index new) := by
  refine ⟨fun i j first second at_first at_second one two => ?_, fun process member holding => ?_⟩
  · rcases set_cases at_first with ⟨rfl, rfl⟩ | ⟨_, first_old⟩ <;>
      rcases set_cases at_second with ⟨rfl, rfl⟩ | ⟨_, second_old⟩
    · rfl
    · exact h.alone _ _ _ _ running second_old (less one) two
    · exact h.alone _ _ _ _ first_old running one (less two)
    · exact h.alone _ _ _ _ first_old second_old one two
  · rcases List.mem_or_eq_of_mem_set member with before | rfl
    · exact h.held process before holding
    · exact h.held old (List.mem_of_getElem? running) (less holding)

theorem acquire (h : Exclusive holds false processes) : Exclusive holds true (processes.set index new) := by
  have free : ∀ {i : Nat} {process : Process Op Note}, processes[i]? = some process →
      ¬ holds process.note := fun there holding => by
    cases h.held _ (List.mem_of_getElem? there) holding
  refine ⟨fun i j first second at_first at_second one two => ?_, fun _ _ _ => rfl⟩
  rcases set_cases at_first with ⟨rfl, rfl⟩ | ⟨_, first_old⟩
  · rcases set_cases at_second with ⟨rfl, rfl⟩ | ⟨_, second_old⟩
    · rfl
    · exact absurd two (free second_old)
  · exact absurd one (free first_old)

theorem release (h : Exclusive holds locked processes) (running : processes[index]? = some old)
    (holder : holds old.note) (gone : ¬ holds new.note) :
    Exclusive holds false (processes.set index new) := by
  have free : ∀ {i : Nat} {process : Process Op Note}, (processes.set index new)[i]? = some process →
      ¬ holds process.note := by
    intro i process there holding
    rcases set_cases there with ⟨rfl, rfl⟩ | ⟨different, before⟩
    · exact gone holding
    · exact different (h.alone _ _ _ _ before running holding holder)
  refine ⟨fun i j first second at_first _ one _ => absurd one (free at_first), fun process member holding => ?_⟩
  obtain ⟨i, there⟩ := List.mem_iff_getElem?.mp member
  exact absurd holding (free there)

/-- A process lets go of the lock if it holds it. -/
theorem drop (h : Exclusive holds locked processes) (running : processes[index]? = some old) {held : Bool}
    (holder : holds old.note ↔ held = true) (gone : ¬ holds new.note) :
    Exclusive holds (locked && !held) (processes.set index new) := by
  cases held with
  | true =>
    rw [Bool.not_true, Bool.and_false]
    exact h.release running (holder.mpr rfl) gone
  | false =>
    rw [Bool.not_false, Bool.and_true]
    exact h.keep running fun holding => absurd holding gone

theorem start (h : Exclusive holds locked processes) (idle : ¬ holds new.note) :
    Exclusive holds locked (processes ++ [new]) := by
  have known : ∀ {i : Nat} {process : Process Op Note}, (processes ++ [new])[i]? = some process →
      holds process.note → processes[i]? = some process := by
    intro i process there holding
    by_cases before : i < processes.length
    · rwa [List.getElem?_append_left before] at there
    · rw [List.getElem?_append_right (Nat.not_lt.mp before), List.getElem?_singleton] at there
      split at there
      · exact absurd (Option.some.inj there ▸ holding) idle
      · cases there
  refine ⟨fun i j first second at_first at_second one two =>
    h.alone _ _ _ _ (known at_first one) (known at_second two) one two, fun process member holding => ?_⟩
  rcases List.mem_append.mp member with before | last
  · exact h.held process before holding
  · exact absurd (List.mem_singleton.mp last ▸ holding) idle

end Exclusive
end CkGit.Base
