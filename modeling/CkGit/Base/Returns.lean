import CkGit.Base.Prog

/-!
# Programs by what they return

The runs of a program that return, read off its parts, and the loop rules for
them. A run that throws is not described here.
-/
namespace CkGit.Base.Prog
variable {σ ε α β : Type} {s t : σ}

/-- An undisturbed run returns this value and leaves this state. -/
def Returns (p : Prog σ ε α) (s : σ) (a : α) (t : σ) : Prop := p.exec s = (.ok a, t)

@[simp] theorem returns_done {a b : α} : (done a : Prog σ ε α).Returns s b t ↔ a = b ∧ s = t := by
  simp [Returns, exec]

@[simp] theorem returns_pure {a b : α} : (pure a : Prog σ ε α).Returns s b t ↔ a = b ∧ s = t := returns_done

@[simp] theorem returns_throw {error : ε} {a : α} : ¬ (throw error : Prog σ ε α).Returns s a t := by
  simp [Returns, exec]

@[simp] theorem returns_bind {p : Prog σ ε α} {f : α → Prog σ ε β} {b : β} :
    (p >>= f).Returns s b t ↔ ∃ a u, p.Returns s a u ∧ (f a).Returns u b t := by
  unfold Returns
  rw [exec_bind]
  cases outcome : p.exec s with
  | mk result u =>
    cases result with
    | ok a =>
      simp only [Prod.mk.injEq, Except.ok.injEq]
      constructor
      · exact fun later => ⟨a, u, ⟨rfl, rfl⟩, later⟩
      · rintro ⟨_, _, ⟨rfl, rfl⟩, later⟩
        exact later
    | error error => simp

@[simp] theorem returns_gets {f : σ → α} {a : α} : (gets f : Prog σ ε α).Returns s a t ↔ f s = a ∧ s = t := by
  simp [Returns, exec, gets]

@[simp] theorem returns_modify {change : σ → σ} {u : Unit} :
    (modify change : Prog σ ε Unit).Returns s u t ↔ change s = t := by
  simp [Returns, exec, modify]

@[simp] theorem returns_ofExcept {x : Except ε α} {a : α} : (ofExcept x).Returns s a t ↔ x = .ok a ∧ s = t := by
  cases x <;> simp [ofExcept]

@[simp] theorem returns_reads {f : σ → Except ε α} {a : α} : (reads f).Returns s a t ↔ f s = .ok a ∧ s = t :=
  returns_ofExcept

@[simp] theorem returns_whenever {condition : Prop} [Decidable condition] {p : Prog σ ε Unit} {u : Unit} :
    (whenever condition p).Returns s u t ↔ (condition ∧ p.Returns s u t) ∨ (¬ condition ∧ s = t) := by
  unfold whenever
  split
  · next holds => simp [holds]
  · next otherwise => simp [otherwise]

theorem Keeps.returns_bestEffort {invariant : σ → Prop} {p : Prog σ ε Unit} {u : Unit} (h : Keeps invariant p)
    (held : invariant s) (run : p.bestEffort.Returns s u t) : invariant t := by
  have kept : p.bestEffort.wp invariant (fun _ => invariant) (fun _ _ => False) s := h.bestEffort held
  have result := wp_exec kept
  rwa [run] at result

/-- Each round keeps the invariant and establishes the fact of its item, and no later round undoes it. -/
theorem Returns.forEach {items : List α} {body : α → Prog σ ε Unit} {r : Unit}
    (run : (forEach items body).Returns s r t) (invariant : σ → Prop) (fact : α → σ → Prop) (start : invariant s)
    (each : ∀ item ∈ items, ∀ r u v, invariant u → (body item).Returns u r v →
      invariant v ∧ fact item v ∧ ∀ other, fact other u → fact other v) :
    invariant t ∧ (∀ item ∈ items, fact item t) ∧ ∀ other, fact other s → fact other t := by
  induction items generalizing s with
  | nil =>
    obtain ⟨_, rfl⟩ := returns_done.mp run
    exact ⟨start, by simp, fun _ held => held⟩
  | cons item rest ih =>
    obtain ⟨r', u, first, later⟩ := returns_bind.mp run
    obtain ⟨kept, reached, frame⟩ := each item List.mem_cons_self r' s u start first
    obtain ⟨done, others, keeps⟩ := ih later kept fun other inside => each other (List.mem_cons_of_mem _ inside)
    refine ⟨done, List.forall_mem_cons.mpr ⟨keeps item reached, others⟩, ?_⟩
    exact fun other held => keeps other (frame other held)

theorem Returns.accumulate {items : List α} {body : β → α → Prog σ ε β} {start last : β}
    (run : (accumulate items start body).Returns s last t) (invariant : β → σ → Prop) (fact : α → σ → Prop)
    (held : invariant start s) (each : ∀ item ∈ items, ∀ held r u v, invariant held u → (body held item).Returns u r v →
      invariant r v ∧ fact item v ∧ ∀ other, fact other u → fact other v) :
    invariant last t ∧ (∀ item ∈ items, fact item t) ∧ ∀ other, fact other s → fact other t := by
  induction items generalizing s start with
  | nil =>
    obtain ⟨rfl, rfl⟩ := returns_done.mp run
    exact ⟨held, by simp, fun _ held => held⟩
  | cons item rest ih =>
    obtain ⟨next, u, first, later⟩ := returns_bind.mp run
    obtain ⟨kept, reached, frame⟩ := each item List.mem_cons_self start next s u held first
    obtain ⟨done, others, keeps⟩ := ih later kept fun other inside => each other (List.mem_cons_of_mem _ inside)
    refine ⟨done, List.forall_mem_cons.mpr ⟨keeps item reached, others⟩, ?_⟩
    exact fun other held => keeps other (frame other held)

end CkGit.Base.Prog
