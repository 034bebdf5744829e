import Mathlib.Data.Fintype.Card
import Mathlib.Data.Fintype.EquivFin
import Mathlib.Data.List.Nodup
import Mathlib.Logic.Relation

/-!
# Kahn's algorithm in rounds

Nodes with what they need. Each round completes the nodes whose needs are
completed; the rounds stop when every node is completed or a round adds none.
They complete every node exactly when every need is a node and no node needs
itself, directly or through others.
-/
namespace CkGit.Base.Kahn
open Relation (TransGen)

variable {κ : Type}

abbrev Graph (κ : Type) := List (κ × List κ)

def nodes (graph : Graph κ) : List κ := graph.map Prod.fst

def Needs (graph : Graph κ) (node other : κ) : Prop := ∃ entry ∈ graph, entry.1 = node ∧ other ∈ entry.2

structure Orderly (graph : Graph κ) : Prop where
  closed : ∀ entry ∈ graph, ∀ need ∈ entry.2, need ∈ nodes graph
  acyclic : ∀ node, ¬ TransGen (Needs graph) node node

/-- A node that only needs nodes of this kind. -/
inductive Grounded (graph : Graph κ) : κ → Prop where
  | intro (entry : κ × List κ) (member : entry ∈ graph) (needs : ∀ need ∈ entry.2, Grounded graph need) :
    Grounded graph entry.1

variable {graph : Graph κ} {node : κ} {completed : List κ}

theorem Grounded.known (grounded : Grounded graph node) : node ∈ nodes graph := by
  cases grounded with
  | intro entry member _ => exact List.mem_map_of_mem member

/-- With one entry for each node, what a grounded node needs is grounded. -/
theorem Grounded.need (once : (nodes graph).Nodup) (grounded : Grounded graph node) {other : κ}
    (needs : Needs graph node other) : Grounded graph other := by
  obtain ⟨entry, member, rfl, need⟩ := needs
  generalize same : entry.1 = first at grounded
  cases grounded with
  | intro own inside needs =>
    have equal : entry = own := List.inj_on_of_nodup_map once member inside same
    exact needs other (equal ▸ need)

theorem Grounded.acyclic (once : (nodes graph).Nodup) (grounded : Grounded graph node) :
    ¬ TransGen (Needs graph) node node := by
  induction grounded with
  | intro entry member needs ih =>
    intro cycle
    obtain ⟨other, first, back⟩ := TransGen.head'_iff.mp cycle
    obtain ⟨own, inside, same, need⟩ := first
    have equal : own = entry := List.inj_on_of_nodup_map once inside member same
    exact ih other (equal ▸ need) (TransGen.tail' back ⟨own, inside, same, need⟩)

theorem orderly_of_grounded (once : (nodes graph).Nodup) (all : ∀ node ∈ nodes graph, Grounded graph node) :
    Orderly graph where
  closed entry member need inside :=
    ((all entry.1 (List.mem_map_of_mem member)).need once ⟨entry, member, rfl, inside⟩).known
  acyclic node cycle := by
    obtain ⟨other, ⟨entry, member, same, _⟩, _⟩ := TransGen.head'_iff.mp cycle
    exact (all node (same ▸ List.mem_map_of_mem member)).acyclic once cycle

/-- Without a cycle the needs go down to nodes without any. -/
theorem grounded_of_orderly (orderly : Orderly graph) : ∀ node ∈ nodes graph, Grounded graph node := by
  let below : {node // node ∈ nodes graph} → {node // node ∈ nodes graph} → Prop :=
    fun other node => TransGen (Needs graph) node.1 other.1
  have transitive : IsTrans _ below := ⟨fun _ _ _ first second => second.trans first⟩
  have irreflexive : Std.Irrefl below := ⟨fun node => orderly.acyclic node.1⟩
  have finite : Finite {node // node ∈ nodes graph} :=
    Finite.of_surjective (fun index => ⟨(nodes graph).get index, List.get_mem (nodes graph) index⟩) fun node =>
      (List.get_of_mem node.2).imp fun _ same => Subtype.ext same
  have descends : WellFounded below := Finite.wellFounded_of_trans_of_irrefl below
  intro node member
  suffices ∀ node : {node // node ∈ nodes graph}, Grounded graph node.1 from this ⟨node, member⟩
  intro node
  induction node using descends.induction with
  | _ node ih =>
    obtain ⟨entry, inside, same⟩ := List.mem_map.mp node.2
    rw [← same]
    refine .intro entry inside fun need needed => ?_
    exact ih ⟨need, orderly.closed entry inside need needed⟩ (.single ⟨entry, inside, same, needed⟩)

/-- What is completed: nodes, each once, that are grounded. -/
structure Valid (graph : Graph κ) (completed : List κ) : Prop where
  once : completed.Nodup
  grounded : ∀ node ∈ completed, Grounded graph node

theorem valid_nil (graph : Graph κ) : Valid graph [] := ⟨List.nodup_nil, fun _ none => nomatch none⟩

theorem Valid.length_le (valid : Valid graph completed) : completed.length ≤ graph.length := by
  have inside : completed ⊆ nodes graph := fun node member => (valid.grounded node member).known
  have short := (valid.once.subperm inside).length_le
  rwa [nodes, List.length_map] at short

theorem Valid.all (valid : Valid graph completed) (full : graph.length ≤ completed.length) :
    ∀ node ∈ nodes graph, node ∈ completed := by
  have inside : completed ⊆ nodes graph := fun node member => (valid.grounded node member).known
  have whole : completed.Perm (nodes graph) :=
    (valid.once.subperm inside).perm_of_length_le (by rwa [nodes, List.length_map])
  exact fun node member => whole.mem_iff.mpr member

section
variable [DecidableEq κ]

def visit (completed : List κ) (entry : κ × List κ) : List κ :=
  if entry.1 ∉ completed ∧ ∀ need ∈ entry.2, need ∈ completed then entry.1 :: completed else completed

def round (graph : Graph κ) (completed : List κ) : List κ := graph.foldl visit completed

theorem Valid.visit (valid : Valid graph completed) {entry : κ × List κ} (member : entry ∈ graph) :
    Valid graph (visit completed entry) := by
  unfold Kahn.visit
  split
  · next fresh =>
    refine ⟨List.nodup_cons.mpr ⟨fresh.1, valid.once⟩, fun node inside => ?_⟩
    rcases List.mem_cons.mp inside with rfl | earlier
    · exact .intro entry member fun need needed => valid.grounded need (fresh.2 need needed)
    · exact valid.grounded node earlier
  · exact valid

theorem Valid.round (valid : Valid graph completed) : Valid graph (round graph completed) := by
  have fold : ∀ entries : Graph κ, entries ⊆ graph → ∀ completed, Valid graph completed →
      Valid graph (entries.foldl Kahn.visit completed) := by
    intro entries
    induction entries with
    | nil => exact fun _ _ valid => valid
    | cons entry rest ih =>
      intro inside completed valid
      obtain ⟨member, others⟩ := List.cons_subset.mp inside
      exact ih others _ (valid.visit member)
  exact fold graph (List.Subset.refl _) completed valid

theorem suffix_visit (completed : List κ) (entry : κ × List κ) : completed <:+ visit completed entry := by
  unfold visit
  split
  · exact List.suffix_cons _ _
  · exact List.suffix_rfl

theorem suffix_foldl (entries : Graph κ) (completed : List κ) : completed <:+ entries.foldl visit completed := by
  induction entries generalizing completed with
  | nil => exact List.suffix_rfl
  | cons entry rest ih => exact (suffix_visit completed entry).trans (ih _)

/-- A round completes every node whose needs were completed before. -/
theorem mem_round {entry : κ × List κ} (member : entry ∈ graph) (ready : ∀ need ∈ entry.2, need ∈ completed) :
    entry.1 ∈ round graph completed := by
  obtain ⟨front, back, rfl⟩ := List.append_of_mem member
  have grown := suffix_foldl front completed
  have here : entry.1 ∈ visit (front.foldl visit completed) entry := by
    unfold visit
    split
    · exact List.mem_cons_self
    · next stays =>
      by_contra missing
      exact stays ⟨missing, fun need needed => grown.subset (ready need needed)⟩
  rw [round, List.foldl_append, List.foldl_cons]
  exact (suffix_foldl back _).subset here

/-- A round that adds nothing has completed all that can be. -/
theorem stuck (still : (round graph completed).length = completed.length) (grounded : Grounded graph node) :
    node ∈ completed := by
  have same : completed = round graph completed := (suffix_foldl graph completed).eq_of_length still.symm
  induction grounded with
  | intro entry member _ ih =>
    rw [same]
    exact mem_round member fun need needed => ih need needed

def rounds (graph : Graph κ) : Nat → List κ
  | 0 => []
  | count + 1 => round graph (rounds graph count)

theorem valid_rounds (graph : Graph κ) (count : Nat) : Valid graph (rounds graph count) := by
  induction count with
  | zero => exact valid_nil graph
  | succ count ih => exact ih.round

/-- Whether the loop goes on after these are completed. -/
def GoesOn (graph : Graph κ) (completed : List κ) : Prop :=
  completed.length < graph.length ∧ (round graph completed).length ≠ completed.length

/-- There are at most as many rounds as nodes. -/
theorem rounds_end (graph : Graph κ) : ∃ count ≤ graph.length, ¬ GoesOn graph (rounds graph count) := by
  by_contra endless
  have onward : ∀ count ≤ graph.length, GoesOn graph (rounds graph count) := by
    intro count few
    by_contra ends
    exact endless ⟨count, few, ends⟩
  have long : ∀ count ≤ graph.length, count ≤ (rounds graph count).length := by
    intro count few
    induction count with
    | zero => exact Nat.zero_le _
    | succ count ih =>
      have before := ih (by omega)
      have grows := (onward count (by omega)).2
      have kept := (suffix_foldl graph (rounds graph count)).length_le
      rw [← round] at kept
      rw [rounds]
      omega
  have last := (onward graph.length (Nat.le_refl _)).1
  have := long graph.length (Nat.le_refl _)
  omega

/-- The loop: whether every node is completed, after so many rounds at most. -/
def complete (graph : Graph κ) : Nat → List κ → Bool
  | 0, completed => graph.length ≤ completed.length
  | count + 1, completed =>
    if completed.length < graph.length then
      let next := round graph completed
      if next.length = completed.length then false else complete graph count next
    else true

theorem complete_iff (once : (nodes graph).Nodup) {count : Nat} (valid : Valid graph completed)
    (enough : graph.length ≤ completed.length + count) : complete graph count completed = true ↔ Orderly graph := by
  have ends : ∀ {completed : List κ}, Valid graph completed → graph.length ≤ completed.length → Orderly graph :=
    fun valid full => orderly_of_grounded once fun node member => valid.grounded node (valid.all full node member)
  induction count generalizing completed with
  | zero => exact ⟨fun _ => ends valid enough, fun _ => decide_eq_true enough⟩
  | succ count ih =>
    simp only [complete]
    split
    · next few =>
      split
      · next still =>
        refine ⟨fun no => (Bool.false_ne_true no).elim, fun orderly => ?_⟩
        have inside : nodes graph ⊆ completed := fun node member => stuck still (grounded_of_orderly orderly node member)
        have long := (once.subperm inside).length_le
        rw [nodes, List.length_map] at long
        omega
      · next grows =>
        have kept := (suffix_foldl graph completed).length_le
        rw [← round] at kept
        exact ih valid.round (by omega)
    · next many => exact ⟨fun _ => ends valid (by omega), fun _ => rfl⟩

end
end CkGit.Base.Kahn
