import CkGit.Dependencies.Lock
import Mathlib.Data.Finset.Card
import Mathlib.Logic.Relation

/-!
The depth-first search of parseCiDependencyLock over the graph of needs: it ends
on every graph, and it passes exactly when every need is a package, no package
needs itself, and every package is reached from a direct one.
-/
namespace CkGit.Dependencies
open CkGit.Base
open Relation (TransGen ReflTransGen)

section
variable {packages : List CiDependencyPackage} {states after : List Nat} {index other levels : Nat} {names : List Bytes}

def needsOf (packages : List CiDependencyPackage) (index : Nat) : List Bytes :=
  (packages[index]?.map (·.needs)).getD []

def position (packages : List CiDependencyPackage) (name : Bytes) : Option Nat :=
  packages.findIdx? (·.name = name)

/-- The package at one position needs the package at another. -/
def Edge (packages : List CiDependencyPackage) (index other : Nat) : Prop :=
  ∃ name ∈ needsOf packages index, position packages name = some other

def Resolved (packages : List CiDependencyPackage) (index : Nat) : Prop :=
  ∀ name ∈ needsOf packages index, ∃ other, position packages name = some other

abbrev OnTheWay (states : List Nat) (index : Nat) : Prop := states[index]? = some 1

abbrev Done (states : List Nat) (index : Nat) : Prop := states[index]? = some 2

theorem onTheWay_set_ne {value : Nat} (different : index ≠ other) :
    OnTheWay (states.set index value) other ↔ OnTheWay states other := by
  rw [OnTheWay, List.getElem?_set_ne different]

theorem done_set_ne {value : Nat} (different : index ≠ other) :
    Done (states.set index value) other ↔ Done states other := by
  rw [Done, List.getElem?_set_ne different]

theorem OnTheWay.lt (way : OnTheWay states index) : index < states.length :=
  (List.getElem?_eq_some_iff.mp way).1

theorem position_lt {name : Bytes} (found : position packages name = some other) : other < packages.length :=
  (List.findIdx?_eq_some_iff_getElem.mp found).1

theorem Edge.lt (edge : Edge packages index other) : other < packages.length :=
  position_lt edge.choose_spec.2

/-- The visits of the needs of a package. -/
def visitNeeds (packages : List CiDependencyPackage) (levels : Nat) (states : List Nat) (names : List Bytes) :
    Checked (List Nat) :=
  names.foldlM (fun states name =>
    match position packages name with
    | some next => visit packages levels next states
    | none => .error (.lock "dependency lock: unresolved dependency")) states

theorem visit_succ : visit packages (levels + 1) index states
    = if OnTheWay states index then .error (.lock "dependency lock: dependency cycle")
      else if Done states index then .ok states
      else do
        let states ← visitNeeds packages levels (states.set index 1) (needsOf packages index)
        return states.set index 2 := rfl

theorem visitNeeds_cons {name : Bytes} : visitNeeds packages levels states (name :: names)
    = (match position packages name with
      | some next => visit packages levels next states
      | none => .error (.lock "dependency lock: unresolved dependency")) >>= fun states =>
        visitNeeds packages levels states names := List.foldlM_cons

/-- What a visit leaves: the same packages are on the way, more are done, and a package that
became done is reached. -/
structure Visited (packages : List CiDependencyPackage) (reached : Nat → Prop) (states after : List Nat) : Prop where
  length : after.length = states.length
  way : ∀ i, OnTheWay after i ↔ OnTheWay states i
  kept : ∀ i, Done states i → Done after i
  reached : ∀ i, Done after i → Done states i ∨ reached i

/-- What is done has its needs done, and does not need itself. -/
structure Settled (packages : List CiDependencyPackage) (states : List Nat) : Prop where
  resolved : ∀ i, Done states i → Resolved packages i
  closed : ∀ i j, Done states i → Edge packages i j → Done states j
  acyclic : ∀ i, Done states i → ¬ TransGen (Edge packages) i i

theorem Settled.reaches (settled : Settled packages states) (finished : Done states index)
    (path : ReflTransGen (Edge packages) index other) : Done states other := by
  induction path with
  | refl => exact finished
  | tail _ edge ih => exact settled.closed _ _ ih edge

theorem Visited.refl {reached : Nat → Prop} : Visited packages reached states states :=
  ⟨rfl, fun _ => Iff.rfl, fun _ => id, fun _ => .inl⟩

theorem Visited.trans {reached : Nat → Prop} {next : List Nat} (first : Visited packages reached states next)
    (second : Visited packages reached next after) : Visited packages reached states after where
  length := second.length.trans first.length
  way i := (second.way i).trans (first.way i)
  kept i finished := second.kept i (first.kept i finished)
  reached i finished := (second.reached i finished).elim (first.reached i) .inr

theorem Visited.mono {reached further : Nat → Prop} (visited : Visited packages reached states after)
    (more : ∀ i, reached i → further i) : Visited packages further states after :=
  ⟨visited.length, visited.way, visited.kept, fun i finished => (visited.reached i finished).imp_right (more i)⟩

/-- A package whose needs were visited while it was on the way becomes done. -/
theorem Visited.close {next : List Nat} (within : index < states.length) (fresh : ¬ OnTheWay states index)
    (unfinished : ¬ Done states index)
    (visited : Visited packages (ReflTransGen (Edge packages) index) (states.set index 1) next) :
    Visited packages (ReflTransGen (Edge packages) index) states (next.set index 2) := by
  have inside : index < next.length := by
    rw [visited.length, List.length_set]
    exact within
  refine ⟨by rw [List.length_set, visited.length, List.length_set], fun i => ?_, fun i finished => ?_, fun i finished => ?_⟩
  · by_cases same : i = index
    · subst same
      simp [OnTheWay, List.getElem?_set_self inside, fresh]
    · rw [onTheWay_set_ne (Ne.symm same), visited.way, onTheWay_set_ne (Ne.symm same)]
  · have different : index ≠ i := fun same => unfinished (same ▸ finished)
    exact (done_set_ne different).mpr (visited.kept i ((done_set_ne different).mpr finished))
  · by_cases same : index = i
    · exact .inr (same ▸ .refl)
    · exact (visited.reached i ((done_set_ne same).mp finished)).imp_left (done_set_ne same).mp

theorem Settled.opened (settled : Settled packages states) (unfinished : ¬ Done states index) :
    Settled packages (states.set index 1) := by
  have same : ∀ i, Done (states.set index 1) i ↔ Done states i := by
    intro i
    by_cases here : index = i
    · subst here
      refine iff_of_false (fun finished => ?_) unfinished
      by_cases within : index < states.length
      · rw [Done, List.getElem?_set_self within] at finished
        cases finished
      · rw [Done, List.getElem?_eq_none (by rw [List.length_set]; omega)] at finished
        cases finished
    · exact done_set_ne here
  exact ⟨fun i finished => settled.resolved i ((same i).mp finished),
    fun i j finished edge => (same j).mpr (settled.closed i j ((same i).mp finished) edge),
    fun i finished => settled.acyclic i ((same i).mp finished)⟩

/-- A package on the way whose needs are done becomes done: it cannot need itself, since it is
not among what its needs reach. -/
theorem Settled.close (settled : Settled packages states) (way : OnTheWay states index)
    (resolved : Resolved packages index) (needs : ∀ j, Edge packages index j → Done states j) :
    Settled packages (states.set index 2) := by
  have within := way.lt
  have finished_iff : ∀ i, Done (states.set index 2) i ↔ i = index ∨ Done states i := by
    intro i
    by_cases here : index = i
    · subst here
      simp [Done, List.getElem?_set_self within]
    · rw [done_set_ne here]
      simp [Ne.symm here]
  refine ⟨fun i finished => ?_, fun i j finished edge => ?_, fun i finished cycle => ?_⟩
  · rcases (finished_iff i).mp finished with rfl | before
    · exact resolved
    · exact settled.resolved i before
  · refine (finished_iff j).mpr (.inr ?_)
    rcases (finished_iff i).mp finished with rfl | before
    · exact needs j edge
    · exact settled.closed i j before edge
  · rcases (finished_iff i).mp finished with rfl | before
    · obtain ⟨j, edge, path⟩ := TransGen.head'_iff.mp cycle
      have back := settled.reaches (needs j edge) path
      rw [Done, way] at back
      cases back
    · exact settled.acyclic i before cycle

/-- A successful visit, at so many levels. -/
def VisitSpec (packages : List CiDependencyPackage) (levels : Nat) : Prop :=
  ∀ index states after, states.length = packages.length → index < packages.length →
    visit packages levels index states = .ok after →
    Visited packages (ReflTransGen (Edge packages) index) states after ∧ Done after index
      ∧ (Settled packages states → Settled packages after)

theorem visitNeeds_spec (reached : Nat → Prop) (each : VisitSpec packages levels)
    (sized : states.length = packages.length)
    (along : ∀ name ∈ names, ∀ j, position packages name = some j → ∀ i, ReflTransGen (Edge packages) j i → reached i)
    (visited : visitNeeds packages levels states names = .ok after) :
    Visited packages reached states after ∧ (∀ name ∈ names, ∃ j, position packages name = some j ∧ Done after j)
      ∧ (Settled packages states → Settled packages after) := by
  induction names generalizing states with
  | nil =>
    cases visited
    exact ⟨.refl, nofun, id⟩
  | cons name rest ih =>
    rw [visitNeeds_cons, bind_ok] at visited
    obtain ⟨next, first, later⟩ := visited
    cases found : position packages name with
    | none =>
      rw [found] at first
      cases first
    | some j =>
      rw [found] at first
      obtain ⟨head, finished, settles⟩ := each j states next sized (position_lt found) first
      obtain ⟨tail, all, settles'⟩ := ih (head.length.trans sized)
        (fun other member => along other (List.mem_cons_of_mem _ member)) later
      refine ⟨(head.mono (along name List.mem_cons_self j found)).trans tail, fun other member => ?_, settles' ∘ settles⟩
      rcases List.mem_cons.mp member with rfl | member
      · exact ⟨j, found, tail.kept j finished⟩
      · exact all other member

theorem visit_spec (packages : List CiDependencyPackage) (levels : Nat) : VisitSpec packages levels := by
  induction levels with
  | zero => exact nofun
  | succ levels ih =>
    intro index states after sized within visited
    rw [visit_succ] at visited
    split at visited
    · cases visited
    · rename_i fresh
      split at visited
      · rename_i finished
        cases visited
        exact ⟨.refl, finished, id⟩
      · rename_i unfinished
        obtain ⟨next, all, last⟩ := bind_ok.mp visited
        cases last
        obtain ⟨inner, needs, settles⟩ := visitNeeds_spec (ReflTransGen (Edge packages) index) ih
          ((List.length_set ..).trans sized)
          (fun name member j found i path => ReflTransGen.head ⟨name, member, found⟩ path) all
        have opened : OnTheWay (states.set index 1) index := List.getElem?_set_self (sized ▸ within)
        have way : OnTheWay next index := (inner.way index).mpr opened
        refine ⟨inner.close (sized ▸ within) fresh unfinished, List.getElem?_set_self way.lt, fun settled => ?_⟩
        refine (settles (settled.opened unfinished)).close way (fun name member => ?_) fun j edge => ?_
        · obtain ⟨j, found, _⟩ := needs name member
          exact ⟨j, found⟩
        · obtain ⟨name, member, found⟩ := edge
          obtain ⟨j', found', finished⟩ := needs name member
          rw [found] at found'
          cases found'
          exact finished

/-- How many packages are on the way. -/
def ways (packages : List CiDependencyPackage) (states : List Nat) : Nat :=
  ((Finset.range packages.length).filter (OnTheWay states)).card

theorem ways_le (packages : List CiDependencyPackage) (states : List Nat) : ways packages states ≤ packages.length :=
  (Finset.card_filter_le _ _).trans_eq (Finset.card_range _)

theorem Visited.ways {reached : Nat → Prop} (visited : Visited packages reached states after) :
    ways packages after = ways packages states := by
  unfold Dependencies.ways
  congr 1
  exact Finset.filter_congr fun i _ => visited.way i

theorem ways_open (sized : states.length = packages.length) (within : index < packages.length)
    (fresh : ¬ OnTheWay states index) : ways packages (states.set index 1) = ways packages states + 1 := by
  unfold ways
  have outside : index ∉ (Finset.range packages.length).filter (OnTheWay states) :=
    fun member => fresh (Finset.mem_filter.mp member).2
  rw [← Finset.card_insert_of_notMem outside]
  congr 1
  ext i
  rw [Finset.mem_filter, Finset.mem_insert, Finset.mem_filter]
  by_cases same : index = i
  · subst same
    simp [within, OnTheWay, List.getElem?_set_self (sized ▸ within)]
  · rw [onTheWay_set_ne same]
    simp [Ne.symm same]

/-- More levels than packages not on the way make no difference: the search ends by itself. -/
theorem visit_levels {more : Nat} (sized : states.length = packages.length) (within : index < packages.length)
    (enough : packages.length < levels + ways packages states) (further : packages.length < more + ways packages states) :
    visit packages levels index states = visit packages more index states := by
  induction levels generalizing more index states with
  | zero => exact absurd (ways_le packages states) (by omega)
  | succ levels ih =>
    cases more with
    | zero => exact absurd (ways_le packages states) (by omega)
    | succ more =>
      rw [visit_succ, visit_succ]
      split
      · rfl
      · rename_i fresh
        split
        · rfl
        · have opened := ways_open sized within fresh
          have same : ∀ names states, states.length = packages.length → packages.length < levels + ways packages states →
              packages.length < more + ways packages states →
              visitNeeds packages levels states names = visitNeeds packages more states names := by
            intro names
            induction names with
            | nil => exact fun _ _ _ _ => rfl
            | cons name rest each =>
              intro states sized enough further
              rw [visitNeeds_cons, visitNeeds_cons]
              cases found : position packages name with
              | none => rfl
              | some j =>
                show visit packages levels j states >>= _ = visit packages more j states >>= _
                rw [← ih sized (position_lt found) enough further]
                cases first : visit packages levels j states with
                | error _ => rfl
                | ok next =>
                  obtain ⟨visited, _⟩ := visit_spec packages levels j states next sized (position_lt found) first
                  exact each next (visited.length.trans sized) (visited.ways ▸ enough) (visited.ways ▸ further)
          rw [same _ _ ((List.length_set ..).trans sized) (by omega) (by omega)]

/-- More levels than packages not on the way are never used up, on any graph: every level puts
another package on the way. -/
theorem visit_ends (sized : states.length = packages.length) (within : index < packages.length)
    (enough : packages.length < levels + ways packages states) :
    visit packages levels index states ≠ .error .outOfLevels := by
  induction levels generalizing index states with
  | zero => exact absurd (ways_le packages states) (by omega)
  | succ levels ih =>
    rw [visit_succ]
    split
    · simp
    · rename_i fresh
      split
      · simp
      · have opened := ways_open sized within fresh
        have ends : ∀ names states, states.length = packages.length → packages.length < levels + ways packages states →
            visitNeeds packages levels states names ≠ .error .outOfLevels := by
          intro names
          induction names with
          | nil =>
            intro states _ _ stopped
            cases stopped
          | cons name rest each =>
            intro states sized enough
            rw [visitNeeds_cons]
            cases found : position packages name with
            | none => simp [bind, Except.bind]
            | some j =>
              show visit packages levels j states >>= _ ≠ _
              have first_ends := ih sized (position_lt found) enough
              cases first : visit packages levels j states with
              | error error =>
                rw [first] at first_ends
                exact fun same => first_ends (congrArg Except.error (Except.error.inj same))
              | ok next =>
                obtain ⟨visited, _⟩ := visit_spec packages levels j states next sized (position_lt found) first
                exact each next (visited.length.trans sized) (visited.ways ▸ enough)
        have inner := ends (needsOf packages index) (states.set index 1) ((List.length_set ..).trans sized) (by omega)
        cases result : visitNeeds packages levels (states.set index 1) (needsOf packages index) with
        | error error =>
          rw [result] at inner
          exact fun same => inner (congrArg Except.error (Except.error.inj same))
        | ok next => simp [bind, Except.bind, pure, Except.pure]

/-- The needs are packages, and no package needs itself. -/
structure Closed (packages : List CiDependencyPackage) : Prop where
  resolved : ∀ i, Resolved packages i
  acyclic : ∀ i, ¬ TransGen (Edge packages) i i

theorem visit_passes (closed : Closed packages) (sized : states.length = packages.length) (within : index < packages.length)
    (enough : packages.length < levels + ways packages states)
    (above : ∀ i, OnTheWay states i → TransGen (Edge packages) i index) :
    ∃ after, visit packages levels index states = .ok after := by
  induction levels generalizing index states with
  | zero => exact absurd (ways_le packages states) (by omega)
  | succ levels ih =>
    rw [visit_succ]
    have fresh : ¬ OnTheWay states index := fun way => closed.acyclic index (above index way)
    rw [if_neg fresh]
    split
    · exact ⟨_, rfl⟩
    · have opened := ways_open sized within fresh
      have all : ∀ names states, states.length = packages.length → packages.length < levels + ways packages states →
          (∀ name ∈ names, name ∈ needsOf packages index) →
          (∀ i, OnTheWay states i → ReflTransGen (Edge packages) i index) →
          ∃ after, visitNeeds packages levels states names = .ok after := by
        intro names
        induction names with
        | nil => exact fun states _ _ _ _ => ⟨states, rfl⟩
        | cons name rest each =>
          intro states sized enough needed above
          have need := needed name List.mem_cons_self
          obtain ⟨j, found⟩ := closed.resolved index name need
          obtain ⟨next, first⟩ := ih sized (position_lt found) enough fun i way =>
            TransGen.tail' (above i way) ⟨name, need, found⟩
          obtain ⟨visited, _⟩ := visit_spec packages levels j states next sized (position_lt found) first
          obtain ⟨after, later⟩ := each next (visited.length.trans sized) (visited.ways ▸ enough)
            (fun other member => needed other (List.mem_cons_of_mem _ member))
            fun i way => above i ((visited.way i).mp way)
          refine ⟨after, ?_⟩
          rw [visitNeeds_cons, found]
          exact bind_ok.mpr ⟨next, first, later⟩
      obtain ⟨next, visited⟩ := all (needsOf packages index) (states.set index 1) ((List.length_set ..).trans sized)
        (by omega) (fun _ => id) fun i way => by
          by_cases same : index = i
          · exact same ▸ .refl
          · exact (above i ((onTheWay_set_ne same).mp way)).to_reflTransGen
      exact ⟨_, bind_ok.mpr ⟨next, visited, rfl⟩⟩

/-- A package is reached from a direct one. -/
def FromDirect (packages : List CiDependencyPackage) (index : Nat) : Prop :=
  ∃ root package, packages[root]? = some package ∧ package.direct = true ∧ ReflTransGen (Edge packages) root index

/-- The visits of the direct packages. -/
def visitDirect (packages : List CiDependencyPackage) (rows : List (CiDependencyPackage × Nat)) (states : List Nat) :
    Checked (List Nat) :=
  rows.foldlM (fun states (package, index) =>
    if package.direct then visit packages (packages.length + 1) index states else .ok states) states

theorem visitDirect_cons {package : CiDependencyPackage} {rows : List (CiDependencyPackage × Nat)} :
    visitDirect packages ((package, index) :: rows) states
      = (if package.direct then visit packages (packages.length + 1) index states else .ok states) >>= fun states =>
        visitDirect packages rows states := List.foldlM_cons

/-- Between two visits nothing is on the way. -/
structure Paused (packages : List CiDependencyPackage) (states : List Nat) : Prop where
  sized : states.length = packages.length
  free : ∀ i, ¬ OnTheWay states i
  settled : Settled packages states

theorem Paused.visited {reached : Nat → Prop} (paused : Paused packages states)
    (visited : Visited packages reached states after) (settled : Settled packages after) : Paused packages after :=
  ⟨visited.length.trans paused.sized, fun i way => paused.free i ((visited.way i).mp way), settled⟩

theorem visitDirect_spec {rows : List (CiDependencyPackage × Nat)} (paused : Paused packages states)
    (placed : ∀ row ∈ rows, packages[row.2]? = some row.1)
    (visited : visitDirect packages rows states = .ok after) :
    Visited packages (FromDirect packages) states after ∧ Paused packages after
      ∧ ∀ row ∈ rows, row.1.direct = true → Done after row.2 := by
  induction rows generalizing states with
  | nil =>
    cases visited
    exact ⟨.refl, paused, nofun⟩
  | cons row rest ih =>
    obtain ⟨package, index⟩ := row
    have own : packages[index]? = some package := placed _ List.mem_cons_self
    rw [visitDirect_cons, bind_ok] at visited
    obtain ⟨next, first, later⟩ := visited
    have others := fun row member => placed row (List.mem_cons_of_mem _ member)
    split at first
    · rename_i direct
      obtain ⟨head, finished, settles⟩ := visit_spec packages _ index states next paused.sized
        (List.getElem?_eq_some_iff.mp own).1 first
      have from_here := head.mono fun i path => (⟨index, package, own, direct, path⟩ : FromDirect packages i)
      obtain ⟨tail, done, all⟩ := ih (paused.visited head (settles paused.settled)) others later
      refine ⟨from_here.trans tail, done, fun other member flagged => ?_⟩
      rcases List.mem_cons.mp member with rfl | member
      · exact tail.kept index finished
      · exact all other member flagged
    · rename_i indirect
      cases first
      obtain ⟨tail, done, all⟩ := ih paused others later
      refine ⟨tail, done, fun other member flagged => ?_⟩
      rcases List.mem_cons.mp member with rfl | member
      · exact absurd flagged indirect
      · exact all other member flagged

theorem visitDirect_passes {rows : List (CiDependencyPackage × Nat)} (closed : Closed packages)
    (paused : Paused packages states) (placed : ∀ row ∈ rows, packages[row.2]? = some row.1) :
    ∃ after, visitDirect packages rows states = .ok after := by
  induction rows generalizing states with
  | nil => exact ⟨states, rfl⟩
  | cons row rest ih =>
    obtain ⟨package, index⟩ := row
    have own : packages[index]? = some package := placed _ List.mem_cons_self
    have within := (List.getElem?_eq_some_iff.mp own).1
    have others := fun row member => placed row (List.mem_cons_of_mem _ member)
    have first : ∃ next, (if package.direct then visit packages (packages.length + 1) index states else .ok states) = .ok next
        ∧ Paused packages next := by
      split
      · have passes : ∃ next, visit packages (packages.length + 1) index states = .ok next :=
          visit_passes closed paused.sized within (by omega) fun i way => absurd way (paused.free i)
        obtain ⟨next, first⟩ := passes
        obtain ⟨visited, _, settles⟩ := visit_spec packages _ index states next paused.sized within first
        exact ⟨next, first, paused.visited visited (settles paused.settled)⟩
      · exact ⟨states, rfl, paused⟩
    obtain ⟨next, first, paused'⟩ := first
    obtain ⟨after, later⟩ := ih paused' others
    exact ⟨after, by rw [visitDirect_cons]; exact bind_ok.mpr ⟨next, first, later⟩⟩

theorem unseen_paused (packages : List CiDependencyPackage) :
    Paused packages (List.replicate packages.length 0) := by
  have other : ∀ (i value : Nat), value ≠ 0 → (List.replicate packages.length 0)[i]? ≠ some value := by
    intro i value different here
    rw [List.getElem?_replicate] at here
    split at here
    · exact different (Option.some.inj here).symm
    · cases here
  exact ⟨List.length_replicate, fun i => other i 1 (by decide),
    fun i finished => absurd finished (other i 2 (by decide)),
    fun i _ finished => absurd finished (other i 2 (by decide)),
    fun i finished => absurd finished (other i 2 (by decide))⟩

theorem zipIdx_placed : ∀ row ∈ packages.zipIdx, packages[row.2]? = some row.1 := by
  rintro ⟨package, index⟩ member
  exact List.mem_zipIdx_iff_getElem?.mp member

/-- The search passes exactly when the needs are packages, none needs itself, and a direct package
reaches each. -/
theorem rejectUnreachable_ok : rejectUnreachable packages = .ok ()
    ↔ Closed packages ∧ ∀ i < packages.length, FromDirect packages i := by
  have unfolded : rejectUnreachable packages = .ok () ↔ ∃ states,
      visitDirect packages packages.zipIdx (List.replicate packages.length 0) = .ok states
        ∧ states.any (· != 2) = false := by
    unfold rejectUnreachable
    rw [bind_ok]
    refine exists_congr fun states => and_congr_right fun _ => ?_
    rw [rejectIf_ok, Bool.not_eq_true]
  rw [unfolded]
  have begun := unseen_paused packages
  constructor
  · rintro ⟨states, visited, finished⟩
    obtain ⟨spread, paused, _⟩ := visitDirect_spec begun zipIdx_placed visited
    have all : ∀ i < packages.length, Done states i := by
      intro i within
      have inside : i < states.length := paused.sized ▸ within
      have two := List.any_eq_false.mp finished states[i] (List.getElem_mem inside)
      rw [Done, List.getElem?_eq_getElem inside]
      simpa using two
    have outside : ∀ i, ¬ i < packages.length → needsOf packages i = [] := by
      intro i far
      rw [needsOf, List.getElem?_eq_none (Nat.not_lt.mp far)]
      rfl
    refine ⟨⟨fun i => ?_, fun i cycle => ?_⟩, fun i within => ?_⟩
    · by_cases within : i < packages.length
      · exact paused.settled.resolved i (all i within)
      · rw [Resolved, outside i within]
        exact nofun
    · obtain ⟨j, _, edge⟩ := TransGen.tail'_iff.mp cycle
      exact paused.settled.acyclic i (all i edge.lt) cycle
    · refine (spread.reached i (all i within)).resolve_left fun early => ?_
      rw [Done, List.getElem?_replicate_of_lt within] at early
      cases early
  · rintro ⟨closed, reached⟩
    obtain ⟨states, visited⟩ := visitDirect_passes closed begun zipIdx_placed
    obtain ⟨_, paused, direct⟩ := visitDirect_spec begun zipIdx_placed visited
    refine ⟨states, visited, List.any_eq_false.mpr fun value member => ?_⟩
    obtain ⟨i, within, rfl⟩ := List.getElem_of_mem member
    obtain ⟨root, package, own, flagged, path⟩ := reached i (paused.sized ▸ within)
    have root_done := direct (package, root) (List.mem_zipIdx_iff_getElem?.mpr own) flagged
    have finished := paused.settled.reaches root_done path
    rw [Done, List.getElem?_eq_getElem within] at finished
    simp [Option.some.inj finished]

end

end CkGit.Dependencies
