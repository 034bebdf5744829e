import CkGit.Graph.Model
import Mathlib.Data.List.Nodup

/-!
What one row does to the lanes: the commit's lane goes, its parents come, the
others stay, and every edge joins the lanes of one commit.
-/
namespace CkGit.Graph
open CkGit.Base

theorem unique_spec (lanes : List Bytes) : (unique lanes).Nodup ∧ ∀ id, id ∈ unique lanes ↔ id ∈ lanes := by
  have fold (start rest : List Bytes) (nodup : start.Nodup) :
      (rest.foldl (fun unique id => if id ∈ unique then unique else unique ++ [id]) start).Nodup ∧
      ∀ id, id ∈ rest.foldl (fun unique id => if id ∈ unique then unique else unique ++ [id]) start
        ↔ id ∈ start ∨ id ∈ rest := by
    induction rest generalizing start with
    | nil => exact ⟨nodup, by simp⟩
    | cons first rest ih =>
      rw [List.foldl_cons]
      by_cases known : first ∈ start
      · rw [if_pos known]
        refine ⟨(ih start nodup).1, fun id => ?_⟩
        rw [(ih start nodup).2 id, List.mem_cons]
        constructor
        · exact fun h => h.imp_right .inr
        · rintro (old | rfl | new)
          · exact .inl old
          · exact .inl known
          · exact .inr new
      · rw [if_neg known]
        have more : (start ++ [first]).Nodup :=
          List.nodup_append.mpr ⟨nodup, List.nodup_singleton first, by
            rintro a old b (_ | ⟨_, ⟨⟩⟩) rfl
            exact known old⟩
        refine ⟨(ih _ more).1, fun id => ?_⟩
        rw [(ih _ more).2 id]
        simp [or_assoc]
  have whole := fold [] lanes List.nodup_nil
  exact ⟨whole.1, fun id => by simpa [unique] using whole.2 id⟩

/-- In the other lanes stand the other ids. -/
theorem other_lane {lanes : List Bytes} (nodup : lanes.Nodup) {lane : Nat} {own id : Bytes}
    (stands : lanes[lane]? = some own) :
    (∃ i, i ≠ lane ∧ lanes[i]? = some id) ↔ id ∈ lanes ∧ id ≠ own := by
  constructor
  · rintro ⟨i, other, found⟩
    refine ⟨List.mem_of_getElem? found, ?_⟩
    rintro rfl
    exact other ((List.getElem?_inj (List.getElem?_eq_some_iff.mp found).1 nodup).mp (found.trans stands.symm))
  · rintro ⟨inside, other⟩
    obtain ⟨i, found⟩ := List.mem_iff_getElem?.mp inside
    refine ⟨i, ?_, found⟩
    rintro rfl
    exact other (Option.some.inj (found.symm.trans stands))

theorem mem_set_lane {lanes : List Bytes} {lane : Nat} (inside : lane < lanes.length) {front id : Bytes} :
    id ∈ lanes.set lane front ↔ id = front ∨ ∃ i, i ≠ lane ∧ lanes[i]? = some id := by
  rw [List.mem_iff_getElem?]
  constructor
  · rintro ⟨i, found⟩
    rw [List.getElem?_set] at found
    by_cases here : lane = i
    · rw [if_pos here, if_pos inside] at found
      exact .inl (Option.some.inj found).symm
    · rw [if_neg here] at found
      exact .inr ⟨i, Ne.symm here, found⟩
  · rintro (rfl | ⟨i, other, found⟩)
    · exact ⟨lane, by simp [inside]⟩
    · exact ⟨i, by rw [List.getElem?_set, if_neg (Ne.symm other), found]⟩

theorem mem_insertParents (lane : Nat) (parents : List (Bytes × Nat)) (lanes : List Bytes) (id : Bytes) :
    id ∈ parents.foldl (insertParent lane) lanes ↔ id ∈ lanes ∨ id ∈ parents.map (·.1) := by
  induction parents generalizing lanes with
  | nil => simp
  | cons parent rest ih =>
    rw [List.foldl_cons, ih, insertParent]
    by_cases known : parent.1 ∈ lanes
    · rw [if_pos known, List.map_cons, List.mem_cons]
      constructor
      · exact fun h => h.imp_right .inr
      · rintro (old | rfl | new)
        · exact .inl old
        · exact .inl known
        · exact .inr new
    · rw [if_neg known, List.mem_insertIdx (Nat.min_le_right _ _), List.map_cons, List.mem_cons]
      tauto

theorem mem_replaceLane {lanes : List Bytes} (nodup : lanes.Nodup) {lane : Nat} {own : Bytes}
    (stands : lanes[lane]? = some own) (parents : List Bytes) (id : Bytes) :
    id ∈ replaceLane lanes lane parents ↔ id ∈ parents ∨ (id ∈ lanes ∧ id ≠ own) := by
  rw [← other_lane nodup stands]
  cases parents with
  | nil =>
    rw [replaceLane, List.mem_eraseIdx_iff_getElem?]
    simp
  | cons front rest =>
    rw [replaceLane, mem_insertParents, mem_set_lane (List.getElem?_eq_some_iff.mp stands).1, List.zipIdx_cons,
      List.drop_succ_cons, List.drop_zero, List.zipIdx_map_fst, List.mem_cons]
    exact or_right_comm

/-- A row drawn under these lanes. -/
structure Drawn (lanes : List Bytes) (commit : WebCommit) (row : Row) : Prop where
  commit_eq : row.commit = commit
  top : row.top = lanes
  before : row.before.Nodup
  node : row.before[row.lane]? = some commit.id
  incoming : row.hasIncoming = true ↔ commit.id ∈ lanes
  nodup : row.lanes.Nodup
  mem : ∀ id, id ∈ row.lanes ↔ id ∈ commit.parents ∨ (id ∈ lanes ∧ id ≠ commit.id)

theorem findIdx_of_mem {lanes : List Bytes} {id : Bytes} (inside : id ∈ lanes) :
    lanes[lanes.findIdx fun other => decide (other = id)]? = some id := by
  have found : lanes.findIdx (fun other => decide (other = id)) < lanes.length :=
    List.findIdx_lt_length_of_exists ⟨id, inside, by simp⟩
  have equal := List.findIdx_getElem (w := found)
  rw [List.getElem?_eq_getElem found]
  exact congrArg some (of_decide_eq_true equal)

theorem openLane_nodup {lanes : List Bytes} (nodup : lanes.Nodup) (id : Bytes) : (openLane lanes id).Nodup := by
  unfold openLane
  split
  · exact nodup
  · rename_i new
    refine List.nodup_append.mpr ⟨nodup, List.nodup_singleton _, ?_⟩
    rintro a old b (_ | ⟨_, ⟨⟩⟩) rfl
    exact new old

theorem mem_openLane {lanes : List Bytes} {own id : Bytes} : id ∈ openLane lanes own ↔ id ∈ lanes ∨ id = own := by
  unfold openLane
  split
  · rename_i known
    exact ⟨.inl, fun h => h.elim (fun old => old) fun same => same ▸ known⟩
  · simp

/-- The row of a commit, however many lanes it has. -/
def wholeRow (lanes : List Bytes) (commit : WebCommit) : Row :=
  let before := openLane lanes commit.id
  let lane := before.findIdx (· = commit.id)
  { commit, before, lane, hasIncoming := commit.id ∈ lanes
    lanes := unique (replaceLane before lane commit.parents) }

theorem wholeRow_drawn {lanes : List Bytes} (nodup : lanes.Nodup) (commit : WebCommit) :
    Drawn lanes commit (wholeRow lanes commit) := by
  have own : commit.id ∈ openLane lanes commit.id := mem_openLane.mpr (.inr rfl)
  have distinct := openLane_nodup nodup commit.id
  have kept := unique_spec (replaceLane (openLane lanes commit.id)
    ((openLane lanes commit.id).findIdx fun id => decide (id = commit.id)) commit.parents)
  refine ⟨rfl, ?_, distinct, findIdx_of_mem own, by simp [wholeRow], kept.1, fun id => ?_⟩
  · by_cases incoming : commit.id ∈ lanes
    · simp [Row.top, wholeRow, openLane, incoming]
    · simp [Row.top, wholeRow, openLane, incoming]
  · rw [wholeRow, kept.2, mem_replaceLane distinct (findIdx_of_mem own), mem_openLane]
    tauto

theorem drawCommit_eq (lanes : List Bytes) (commit : WebCommit) : drawCommit lanes commit
    = if (openLane lanes commit.id).length ≤ maximumLanes ∧ commit.parents.length ≤ maximumLanes
        ∧ (wholeRow lanes commit).lanes.length ≤ maximumLanes then some (wholeRow lanes commit) else none := by
  have shape : drawCommit lanes commit
      = if (openLane lanes commit.id).length > maximumLanes ∨ commit.parents.length > maximumLanes then none
        else if (wholeRow lanes commit).lanes.length > maximumLanes then none
        else some (wholeRow lanes commit) := rfl
  rw [shape]
  by_cases above : (openLane lanes commit.id).length > maximumLanes ∨ commit.parents.length > maximumLanes
  · rw [if_pos above, if_neg fun fits => by omega]
  · rw [if_neg above]
    by_cases below : (wholeRow lanes commit).lanes.length > maximumLanes
    · rw [if_pos below, if_neg fun fits => by omega]
    · rw [if_neg below, if_pos (by omega)]

theorem drawCommit_drawn {lanes : List Bytes} (nodup : lanes.Nodup) {commit : WebCommit} {row : Row}
    (h : drawCommit lanes commit = some row) : Drawn lanes commit row := by
  rw [drawCommit_eq] at h
  split at h
  · obtain rfl := Option.some.inj h
    exact wholeRow_drawn nodup commit
  · cases h

theorem findIdx?_iff {lanes : List Bytes} (nodup : lanes.Nodup) {id : Bytes} {lane : Nat} :
    lanes.findIdx? (fun other => decide (other = id)) = some lane ↔ lanes[lane]? = some id := by
  constructor
  · intro found
    obtain ⟨inside, equal, -⟩ := List.findIdx?_eq_some_iff_getElem.mp found
    rw [List.getElem?_eq_getElem inside]
    exact congrArg some (of_decide_eq_true equal)
  · intro stands
    obtain ⟨inside, equal⟩ := List.getElem?_eq_some_iff.mp stands
    refine List.findIdx?_eq_some_iff_getElem.mpr ⟨inside, decide_eq_true equal, fun j less other => ?_⟩
    have same : j = lane := (nodup.getElem_inj_iff).mp ((of_decide_eq_true other).trans equal.symm)
    omega

variable {lanes : List Bytes} {commit : WebCommit} {row : Row}

theorem mem_edges {edge : Edge} : edge ∈ row.edges ↔
    (∃ id lane, row.before[lane]? = some id ∧ edge ∈ passingEdge row id lane) ∨
    ∃ parent ∈ row.commit.parents, edge ∈ parentEdge row parent := by
  rw [Row.edges, List.mem_append, List.mem_flatMap, List.mem_flatMap]
  refine or_congr ?_ Iff.rfl
  constructor
  · rintro ⟨⟨id, lane⟩, inside, found⟩
    exact ⟨id, lane, List.mem_zipIdx_iff_getElem?.mp inside, found⟩
  · rintro ⟨id, lane, stands, found⟩
    exact ⟨(id, lane), List.mem_zipIdx_iff_getElem?.mpr stands, found⟩

theorem passingEdge_mem {id : Bytes} {lane : Nat} {edge : Edge} (nodup : row.lanes.Nodup) :
    edge ∈ passingEdge row id lane ↔
      (edge = .incoming lane ∧ lane = row.lane ∧ row.hasIncoming = true) ∨
      ∃ next, edge = .passing lane next ∧ lane ≠ row.lane ∧ row.lanes[next]? = some id := by
  rw [passingEdge]
  by_cases own : lane = row.lane
  · by_cases incoming : row.hasIncoming = true
    · simp [own, incoming]
    · simp [own, incoming]
  · rw [if_neg own]
    cases found : row.lanes.findIdx? (fun other => decide (other = id)) with
    | none =>
      have absent (next : Nat) : row.lanes[next]? ≠ some id := fun stands => by
        rw [(findIdx?_iff nodup).mpr stands] at found
        cases found
      simp [own, absent]
    | some next =>
      have stands := (findIdx?_iff nodup).mp found
      have only (other : Nat) : row.lanes[other]? = some id ↔ other = next := by
        rw [← findIdx?_iff nodup, found]
        exact ⟨fun same => (Option.some.inj same).symm, fun same => congrArg some same.symm⟩
      simp [own, only]

theorem parentEdge_mem {parent : Bytes} {edge : Edge} (nodup : row.lanes.Nodup) :
    edge ∈ parentEdge row parent ↔ ∃ next, edge = .outgoing row.lane next ∧ row.lanes[next]? = some parent := by
  rw [parentEdge]
  cases found : row.lanes.findIdx? (fun other => decide (other = parent)) with
  | none =>
    have absent (next : Nat) : row.lanes[next]? ≠ some parent := fun stands => by
      rw [(findIdx?_iff nodup).mpr stands] at found
      cases found
    simp [absent]
  | some next =>
    have only (other : Nat) : row.lanes[other]? = some parent ↔ other = next := by
      rw [← findIdx?_iff nodup, found]
      exact ⟨fun same => (Option.some.inj same).symm, fun same => congrArg some same.symm⟩
    simp [only]

theorem incoming_mem (nodup : row.lanes.Nodup) (node : row.before[row.lane]? = some row.commit.id) {lane : Nat} :
    .incoming lane ∈ row.edges ↔ lane = row.lane ∧ row.hasIncoming = true := by
  rw [mem_edges]
  simp only [passingEdge_mem nodup, parentEdge_mem nodup]
  constructor
  · rintro (⟨id, other, -, ⟨same, own, incoming⟩ | ⟨next, same, -⟩⟩ | ⟨parent, -, next, same, -⟩)
    · cases same
      exact ⟨own, incoming⟩
    · cases same
    · cases same
  · rintro ⟨rfl, incoming⟩
    exact .inl ⟨_, _, node, .inl ⟨rfl, rfl, incoming⟩⟩

theorem passing_mem (nodup : row.lanes.Nodup) {lane next : Nat} :
    .passing lane next ∈ row.edges ↔
      lane ≠ row.lane ∧ ∃ id, row.before[lane]? = some id ∧ row.lanes[next]? = some id := by
  rw [mem_edges]
  simp only [passingEdge_mem nodup, parentEdge_mem nodup]
  constructor
  · rintro (⟨id, other, stands, ⟨same, -⟩ | ⟨target, same, own, below⟩⟩ | ⟨parent, -, target, same, -⟩)
    · cases same
    · cases same
      exact ⟨own, id, stands, below⟩
    · cases same
  · rintro ⟨own, id, stands, below⟩
    exact .inl ⟨id, lane, stands, .inr ⟨next, rfl, own, below⟩⟩

theorem outgoing_mem (nodup : row.lanes.Nodup) {lane next : Nat} :
    .outgoing lane next ∈ row.edges ↔
      lane = row.lane ∧ ∃ parent ∈ row.commit.parents, row.lanes[next]? = some parent := by
  rw [mem_edges]
  simp only [passingEdge_mem nodup, parentEdge_mem nodup]
  constructor
  · rintro (⟨id, other, stands, ⟨same, -⟩ | ⟨target, same, -⟩⟩ | ⟨parent, named, target, same, below⟩)
    · cases same
    · cases same
    · cases same
      exact ⟨rfl, parent, named, below⟩
  · rintro ⟨rfl, parent, named, below⟩
    exact .inr ⟨parent, named, next, rfl, below⟩

end CkGit.Graph
