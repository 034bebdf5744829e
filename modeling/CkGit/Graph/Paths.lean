import CkGit.Graph.Lanes
import Mathlib.Data.List.Dedup

/-!
The rows together: the lanes below a row are those above the next one and wait
for exactly the parents still to come, so the edges from a commit lead to its
parents and to nothing else.
-/
namespace CkGit.Graph
open CkGit.Base

/-- The lanes wait for the parents of the commits drawn that have not been drawn. -/
structure Waiting (drawn : List WebCommit) (lanes : List Bytes) : Prop where
  nodup : lanes.Nodup
  mem : ∀ id, id ∈ lanes ↔ (∃ commit ∈ drawn, id ∈ commit.parents) ∧ ∀ commit ∈ drawn, commit.id ≠ id

/-- Commits stand before all their parents. -/
def Ordered (commits : List WebCommit) : Prop :=
  ∀ k, (inside : k < commits.length) → ∀ other ∈ commits.take (k + 1), other.id ∉ commits[k].parents

theorem Ordered.split {earlier later : List WebCommit} {commit : WebCommit}
    (ordered : Ordered (earlier ++ commit :: later)) : ∀ other ∈ earlier ++ [commit], other.id ∉ commit.parents := by
  intro other inside
  have here := ordered earlier.length (by simp) other
  have taken : (earlier ++ commit :: later).take (earlier.length + 1) = earlier ++ [commit] := by
    rw [List.take_append, List.take_of_length_le (Nat.le_succ _), Nat.add_sub_cancel_left]
    rfl
  rw [taken] at here
  simpa using here inside

theorem waiting_nil : Waiting [] [] := ⟨List.nodup_nil, by simp⟩

variable {drawn : List WebCommit} {lanes : List Bytes} {commit : WebCommit} {row : Row}

theorem Waiting.step (h : Waiting drawn lanes) (row_drawn : Drawn lanes commit row)
    (ordered : ∀ other ∈ drawn ++ [commit], other.id ∉ commit.parents) : Waiting (drawn ++ [commit]) row.lanes := by
  refine ⟨row_drawn.nodup, fun id => ?_⟩
  rw [row_drawn.mem, h.mem]
  simp only [List.mem_append, List.mem_singleton]
  constructor
  · rintro (named | ⟨⟨⟨other, old, named⟩, undrawn⟩, differs⟩)
    · refine ⟨⟨commit, .inr rfl, named⟩, fun other inside same => ?_⟩
      exact ordered other (List.mem_append.mpr (inside.imp_right List.mem_singleton.mpr)) (same ▸ named)
    · refine ⟨⟨other, .inl old, named⟩, ?_⟩
      rintro other (old | rfl)
      · exact undrawn other old
      · exact Ne.symm differs
  · rintro ⟨⟨other, old | rfl, named⟩, undrawn⟩
    · exact .inr ⟨⟨⟨other, old, named⟩, fun known inside => undrawn known (.inl inside)⟩,
        Ne.symm (undrawn commit (.inr rfl))⟩
    · exact .inl named

theorem drawRows_head {commits : List WebCommit} (nodup : lanes.Nodup) (first : (drawRows lanes commits)[0]? = some row) :
    row.top = lanes := by
  cases commits with
  | nil => cases first
  | cons commit rest =>
    rw [drawRows] at first
    split at first
    · cases first
    · rename_i drawnRow found
      obtain rfl : drawnRow = row := by simpa using first
      exact (drawCommit_drawn nodup found).top

/-- The row of a commit: drawn under the lanes that wait above it, and the next one under its lanes. -/
structure Placed (commits : List WebCommit) (rows : List Row) (k : Nat) (row : Row) : Prop where
  commit : commits[k]? = some row.commit
  above : Waiting (commits.take k) row.top
  drawn : Drawn row.top row.commit row
  below : Waiting (commits.take (k + 1)) row.lanes
  next : ∀ after, rows[k + 1]? = some after → after.top = row.lanes

theorem drawRows_placed {rest : List WebCommit} (waiting : Waiting drawn lanes) (ordered : Ordered (drawn ++ rest))
    {k : Nat} (found : (drawRows lanes rest)[k]? = some row) :
    rest[k]? = some row.commit ∧ Waiting (drawn ++ rest.take k) row.top ∧ Drawn row.top row.commit row ∧
      Waiting (drawn ++ rest.take (k + 1)) row.lanes ∧
      ∀ after, (drawRows lanes rest)[k + 1]? = some after → after.top = row.lanes := by
  induction rest generalizing drawn lanes k with
  | nil => cases found
  | cons commit rest ih =>
    rw [drawRows] at found ⊢
    cases first : drawCommit lanes commit with
    | none =>
      rw [first] at found
      cases found
    | some start =>
      rw [first] at found
      have started := drawCommit_drawn waiting.nodup first
      have step := waiting.step started ordered.split
      cases k with
      | zero =>
        obtain rfl : start = row := by simpa using found
        have same := started.commit_eq
        subst same
        refine ⟨rfl, ?_, ?_, step, fun after found => ?_⟩
        · rw [started.top]
          simpa using waiting
        · rw [started.top]
          exact started
        · exact drawRows_head started.nodup (by simpa using found)
      | succ k =>
        have whole : drawn ++ [commit] ++ rest = drawn ++ commit :: rest := by simp
        have later := ih step (whole ▸ ordered) (by simpa using found)
        simpa using later

theorem placed {commits : List WebCommit} (ordered : Ordered commits) {k : Nat}
    (found : (drawRows [] commits)[k]? = some row) : Placed commits (drawRows [] commits) k row := by
  obtain ⟨commit, above, drawn, below, next⟩ := @drawRows_placed [] [] row commits waiting_nil ordered k found
  exact ⟨commit, above, drawn, below, next⟩

/-- The parents of these commits that are not among them. -/
def waiting (drawn : List WebCommit) : List Bytes :=
  ((drawn.flatMap (·.parents)).filter fun id => ∀ commit ∈ drawn, commit.id ≠ id).dedup

theorem waiting_waits (drawn : List WebCommit) : Waiting drawn (waiting drawn) := by
  refine ⟨List.nodup_dedup _, fun id => ?_⟩
  simp [waiting, List.mem_dedup, List.mem_filter, List.mem_flatMap]

theorem Waiting.perm {other : List Bytes} (h : Waiting drawn lanes) (h' : Waiting drawn other) : lanes.Perm other :=
  (List.perm_ext_iff_of_nodup h.nodup h'.nodup).mpr fun id => (h.mem id).trans (h'.mem id).symm

theorem openLane_length {other : List Bytes} (same : lanes.Perm other) (id : Bytes) :
    (openLane lanes id).length = (openLane other id).length := by
  unfold openLane
  simp only [same.mem_iff]
  split
  · exact same.length_eq
  · simp [same.length_eq]

/-- The row of a commit has at most 128 lanes, above its node and below it, and as many parents. -/
structure Narrow (drawn : List WebCommit) (commit : WebCommit) : Prop where
  above : (openLane (waiting drawn) commit.id).length ≤ maximumLanes
  parents : commit.parents.length ≤ maximumLanes
  below : (waiting (drawn ++ [commit])).length ≤ maximumLanes

theorem drawCommit_narrow (h : Waiting drawn lanes) (ordered : ∀ other ∈ drawn ++ [commit], other.id ∉ commit.parents) :
    (drawCommit lanes commit).isSome ↔ Narrow drawn commit := by
  have below := (h.step (wholeRow_drawn h.nodup commit) ordered).perm (waiting_waits _)
  rw [drawCommit_eq, openLane_length (h.perm (waiting_waits _)), below.length_eq]
  constructor
  · intro drawn
    split at drawn
    · next fits => exact ⟨fits.1, fits.2.1, fits.2.2⟩
    · cases drawn
  · rintro ⟨above, parents, below⟩
    rw [if_pos ⟨above, parents, below⟩]
    rfl

/-- Every row is drawn exactly when none has too many lanes. -/
theorem drawRows_whole {rest : List WebCommit} (h : Waiting drawn lanes) (ordered : Ordered (drawn ++ rest)) :
    (drawRows lanes rest).length = rest.length
      ↔ ∀ k commit, rest[k]? = some commit → Narrow (drawn ++ rest.take k) commit := by
  induction rest generalizing drawn lanes with
  | nil => simp [drawRows]
  | cons commit rest ih =>
    have narrow := drawCommit_narrow h ordered.split
    rw [drawRows]
    cases first : drawCommit lanes commit with
    | none =>
      rw [first] at narrow
      refine ⟨fun same => by simp at same, fun each => ?_⟩
      exact absurd (narrow.mpr (by simpa using each 0 commit rfl)) Bool.false_ne_true
    | some row =>
      rw [first] at narrow
      have whole : drawn ++ [commit] ++ rest = drawn ++ commit :: rest := by simp
      have later := ih (h.step (drawCommit_drawn h.nodup first) ordered.split) (whole ▸ ordered)
      rw [List.length_cons, List.length_cons, Nat.add_right_cancel_iff, later]
      constructor
      · intro each k other there
        cases k with
        | zero =>
          obtain rfl : commit = other := by simpa using there
          simpa using narrow.mp rfl
        | succ k => simpa using each k other (by simpa using there)
      · intro each k other there
        simpa using each (k + 1) other (by simpa using there)

/-- At the top of a row stand the lanes that an edge goes on from. -/
theorem top_getElem? (h : Drawn row.top row.commit row) {lane : Nat} {id : Bytes} :
    row.top[lane]? = some id ↔ row.before[lane]? = some id ∧ (lane = row.lane → row.hasIncoming = true) := by
  by_cases incoming : row.hasIncoming = true
  · simp [Row.top, incoming]
  · have top : row.top = row.before.dropLast := if_neg incoming
    have inside : row.lane < row.before.length := (List.getElem?_eq_some_iff.mp h.node).1
    -- a tip without an edge above stands in the last lane
    have last : row.lane = row.before.length - 1 := by
      by_contra other
      have old : row.top[row.lane]? = some row.commit.id := by
        rw [top, List.getElem?_dropLast, if_pos (by omega), h.node]
      exact incoming (h.incoming.mpr (List.mem_of_getElem? old))
    rw [top, List.getElem?_dropLast]
    by_cases old : lane < row.before.length - 1
    · rw [if_pos old]
      exact ⟨fun stands => ⟨stands, fun same => by omega⟩, fun stands => stands.1⟩
    · rw [if_neg old]
      constructor
      · intro none
        cases none
      · rintro ⟨stands, own⟩
        have bound := (List.getElem?_eq_some_iff.mp stands).1
        exact absurd (own (by omega)) incoming

variable {commits : List WebCommit}

theorem distinct_rows (distinct : (commits.map (·.id)).Nodup) (ordered : Ordered commits) {k m : Nat} {target : Row}
    (found : (drawRows [] commits)[k]? = some row) (other : (drawRows [] commits)[m]? = some target)
    (differs : k ≠ m) : row.commit.id ≠ target.commit.id := by
  intro same
  have first := (placed ordered found).commit
  have second := (placed ordered other).commit
  have ids : (commits.map (·.id))[k]? = (commits.map (·.id))[m]? := by
    rw [List.getElem?_map, List.getElem?_map, first, second, Option.map_some, Option.map_some, same]
  have inside : k < (commits.map (·.id)).length := by
    rw [List.length_map]
    exact (List.getElem?_eq_some_iff.mp first).1
  exact differs ((List.getElem?_inj inside distinct).mp ids)

/-- Edges keep to the lane of one commit until they come to its node. -/
theorem reaches_lane (ordered : Ordered commits) {k lane m : Nat}
    (reaches : Reaches (drawRows [] commits) k lane m) (found : (drawRows [] commits)[k]? = some row) :
    k < m ∧ ∃ target, (drawRows [] commits)[m]? = some target ∧ row.lanes[lane]? = some target.commit.id := by
  induction reaches generalizing row with
  | @node k lane after next edge there =>
    have below := placed ordered next
    refine ⟨Nat.lt_succ_self k, after, next, ?_⟩
    rw [← (placed ordered found).next after next, top_getElem? below.drawn]
    have incoming := ((incoming_mem below.drawn.nodup below.drawn.node).mp edge).2
    exact ⟨there ▸ below.drawn.node, fun _ => incoming⟩
  | @pass k lane next m after below edge rest ih =>
    have later := placed ordered below
    obtain ⟨order, target, stands, same⟩ := ih below
    obtain ⟨other, id, above, under⟩ := (passing_mem later.drawn.nodup).mp edge
    refine ⟨by omega, target, stands, ?_⟩
    rw [← (placed ordered found).next after below, top_getElem? later.drawn]
    refine ⟨?_, fun own => absurd own other⟩
    rw [above, ← under, same]

theorem lane_reaches (distinct : (commits.map (·.id)).Nodup) (ordered : Ordered commits) {k lane m : Nat} {target : Row}
    (found : (drawRows [] commits)[k]? = some row) (order : k < m) (stands : (drawRows [] commits)[m]? = some target)
    (same : row.lanes[lane]? = some target.commit.id) : Reaches (drawRows [] commits) k lane m := by
  obtain ⟨distance, rfl⟩ : ∃ distance, m = k + 1 + distance := ⟨m - (k + 1), by omega⟩
  induction distance generalizing k lane row with
  | zero =>
    have below := placed ordered stands
    rw [← (placed ordered found).next target stands, top_getElem? below.drawn] at same
    have own : lane = target.lane :=
      (List.getElem?_inj (List.getElem?_eq_some_iff.mp same.1).1 below.drawn.before).mp (same.1.trans below.drawn.node.symm)
    exact .node stands ((incoming_mem below.drawn.nodup below.drawn.node).mpr ⟨own, same.2 own⟩) own
  | succ distance ih =>
    have inside : k + 1 < (drawRows [] commits).length := by
      have := (List.getElem?_eq_some_iff.mp stands).1
      omega
    obtain ⟨after, next⟩ : ∃ after, (drawRows [] commits)[k + 1]? = some after :=
      ⟨_, List.getElem?_eq_getElem inside⟩
    have below := placed ordered next
    have differs : target.commit.id ≠ after.commit.id := distinct_rows distinct ordered stands next (by omega)
    rw [← (placed ordered found).next after next] at same
    have kept : target.commit.id ∈ after.lanes :=
      (below.drawn.mem _).mpr (.inr ⟨List.mem_of_getElem? same, differs⟩)
    obtain ⟨under, there⟩ := List.mem_iff_getElem?.mp kept
    have above := ((top_getElem? below.drawn).mp same).1
    have other : lane ≠ after.lane := fun own => differs (Option.some.inj (above.symm.trans (own ▸ below.drawn.node)))
    have shift : k + 1 + (distance + 1) = k + 1 + 1 + distance := by omega
    refine .pass next ((passing_mem below.drawn.nodup).mpr ⟨other, _, above, there⟩) ?_
    rw [shift] at stands ⊢
    exact ih next there (by omega) stands

/-- The edges of a commit lead to its parents and to nothing else. -/
theorem leads_iff (distinct : (commits.map (·.id)).Nodup) (ordered : Ordered commits) {k m : Nat} {target : Row}
    (found : (drawRows [] commits)[k]? = some row) (stands : (drawRows [] commits)[m]? = some target) :
    Leads (drawRows [] commits) k m ↔ target.commit.id ∈ row.commit.parents := by
  have here := placed ordered found
  constructor
  · rintro ⟨start, lane, same, edge, reaches⟩
    obtain rfl : row = start := Option.some.inj (found.symm.trans same)
    obtain ⟨-, parent, named, under⟩ := (outgoing_mem here.drawn.nodup).mp edge
    obtain ⟨-, other, there, arrived⟩ := reaches_lane ordered reaches found
    obtain rfl : target = other := Option.some.inj (stands.symm.trans there)
    rw [under] at arrived
    exact Option.some.inj arrived ▸ named
  · intro named
    have inside : target.commit.id ∈ row.lanes := (here.drawn.mem _).mpr (.inl named)
    obtain ⟨lane, under⟩ := List.mem_iff_getElem?.mp inside
    have undrawn := ((here.below.mem _).mp inside).2
    have order : k < m := by
      by_contra late
      refine undrawn target.commit ?_ rfl
      have position := (placed ordered stands).commit
      obtain ⟨bound, equal⟩ := List.getElem?_eq_some_iff.mp position
      exact List.mem_take_iff_getElem.mpr ⟨m, by omega, equal⟩
    exact ⟨row, lane, found, (outgoing_mem here.drawn.nodup).mpr ⟨rfl, _, named, under⟩,
      lane_reaches distinct ordered found order stands under⟩

def Edge.leavesNode (edge : Edge) : Bool :=
  match edge with
  | .outgoing .. => true
  | _ => false

/-- What the row of a commit shows of the commits around it. -/
structure Connects (commits : List WebCommit) (rows : List Row) (k : Nat) (row : Row) : Prop where
  commit : commits[k]? = some row.commit
  meets : ∀ after, rows[k + 1]? = some after → after.top = row.lanes
  once : row.lanes.Nodup
  waiting : ∀ id, id ∈ row.lanes ↔
    (∃ commit ∈ commits.take (k + 1), id ∈ commit.parents) ∧ ∀ commit ∈ commits.take (k + 1), commit.id ≠ id
  node : row.before[row.lane]? = some row.commit.id
  arrives : ∀ lane, row.top[lane]? = some row.commit.id → lane = row.lane
  incoming : ∀ lane, .incoming lane ∈ row.edges ↔
    lane = row.lane ∧ ∃ commit ∈ commits.take k, row.commit.id ∈ commit.parents
  parents : ∀ parent ∈ row.commit.parents, row.lanes[row.lanes.findIdx (· = parent)]? = some parent
  outgoing : row.edges.filter Edge.leavesNode
    = row.commit.parents.map fun parent => .outgoing row.lane (row.lanes.findIdx (· = parent))

theorem outgoing_edges (h : Drawn row.top row.commit row) : row.edges.filter Edge.leavesNode
    = row.commit.parents.map fun parent => .outgoing row.lane (row.lanes.findIdx fun id => decide (id = parent)) := by
  have none (part : Bytes × Nat) : (passingEdge row part.1 part.2).filter Edge.leavesNode = [] := by
    refine List.filter_eq_nil_iff.mpr fun edge inside => ?_
    rcases (passingEdge_mem h.nodup).mp inside with ⟨rfl, -⟩ | ⟨next, rfl, -⟩ <;> exact Bool.false_ne_true
  have each (parent : Bytes) (named : parent ∈ row.commit.parents) : (parentEdge row parent).filter Edge.leavesNode
      = [.outgoing row.lane (row.lanes.findIdx fun id => decide (id = parent))] := by
    have inside : parent ∈ row.lanes := (h.mem parent).mpr (.inl named)
    have found := (findIdx?_iff h.nodup).mpr (findIdx_of_mem inside)
    rw [parentEdge, found]
    rfl
  rw [Row.edges, List.filter_append, List.filter_flatMap, List.filter_flatMap]
  have left : (row.before.zipIdx.flatMap fun part => (passingEdge row part.1 part.2).filter Edge.leavesNode) = [] :=
    List.flatMap_eq_nil_iff.mpr fun part _ => none part
  have right : (row.commit.parents.flatMap fun parent => (parentEdge row parent).filter Edge.leavesNode)
      = row.commit.parents.map fun parent => .outgoing row.lane (row.lanes.findIdx fun id => decide (id = parent)) := by
    rw [List.map_eq_flatMap]
    exact List.flatMap_congr each
  exact (congrArg₂ (· ++ ·) left right).trans (List.nil_append _)

/-- A merge of three branches, whose parents come in any order after it. -/
def octopus : List WebCommit :=
  [⟨ascii "a", [], [ascii "b", ascii "c", ascii "d"]⟩, ⟨ascii "b", [], [ascii "d"]⟩, ⟨ascii "c", [], [ascii "d"]⟩,
    ⟨ascii "d", [], []⟩]

end CkGit.Graph
