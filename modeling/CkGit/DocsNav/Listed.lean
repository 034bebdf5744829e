import CkGit.DocsNav.Order

/-!
Which pages a navigation lists: a derived one every page that is put into the
tree and not replaced there, a configured one the pages its nav names.
-/
namespace CkGit.DocsNav
open CkGit.Base CkGit.Ci

variable {pages : List DocsPage}

mutual

def pagesOf : DirNode → List Nat
  | .mk _ index_page own children => index_page.toList ++ own ++ pagesOfAll children

def pagesOfAll : List DirNode → List Nat
  | [] => []
  | child :: rest => pagesOf child ++ pagesOfAll rest

end

mutual

/-- The reading order has the pages of the tree. -/
theorem order_perm (pages : List DocsPage) : ∀ node : DirNode, (orderOf pages node).Perm (pagesOf node)
  | .mk name index_page own children => by
    have below := orders_perm pages children
    have single (own : List Nat) :
        (own.map fun index => (pageKey pages index, [index])).flatMap Prod.snd = own := by
      induction own with
      | nil => rfl
      | cons index rest ih => rw [List.map_cons, List.flatMap_cons, ih, List.singleton_append]
    rw [orderOf, pagesOf, List.append_assoc]
    refine List.Perm.append_left _ (((sortChildren_perm _).flatMap_right Prod.snd).trans ?_)
    rw [List.flatMap_append, single]
    exact below.append_left own

theorem orders_perm (pages : List DocsPage) : ∀ nodes : List DirNode,
    ((orders pages nodes).flatMap Prod.snd).Perm (pagesOfAll nodes)
  | [] => .nil
  | child :: rest => by
    have first := order_perm pages child
    have later := orders_perm pages rest
    rw [orders, List.flatMap_cons, pagesOfAll]
    exact first.append later

end

/-- The directory of a name, empty when there is none. -/
def childNamed (component : Bytes) (children : List DirNode) : DirNode :=
  (children.find? (·.name = component)).getD (emptyDir component)

/-- The index page of the directory a path leads to. -/
def indexAt : List Bytes → DirNode → Option Nat
  | [], node => node.index_page
  | component :: path, node => indexAt path (childNamed component node.children)

theorem indexAt_empty (path : List Bytes) (name : Bytes) : indexAt path (emptyDir name) = none := by
  induction path generalizing name with
  | nil => rfl
  | cons component path ih => exact ih component

theorem insert_name (page : Nat) (index : Bool) (path : List Bytes) (node : DirNode) :
    (node.insert page index path).name = node.name := by
  obtain ⟨name, index_page, own, children⟩ := node
  cases path with
  | nil =>
    rw [DirNode.insert]
    split <;> rfl
  | cons component path => rfl

theorem childNamed_change {component other : Bytes} {change : DirNode → DirNode}
    (keeps : ∀ node, (change node).name = node.name) (children : List DirNode) :
    childNamed other (changeChild component change children) =
      if other = component then change (childNamed component children) else childNamed other children := by
  induction children with
  | nil =>
    have name : (change (emptyDir component)).name = component := keeps _
    by_cases same : other = component
    · simp [changeChild, childNamed, same, name]
    · have differs : ¬ component = other := fun equal => same equal.symm
      simp [changeChild, childNamed, same, name, differs]
  | cons existing rest ih =>
    rw [changeChild]
    by_cases here : existing.name = component
    · rw [if_pos here]
      by_cases same : other = component
      · simp [childNamed, same, here, keeps]
      · have differs : ¬ component = other := fun equal => same equal.symm
        simp [childNamed, same, here, keeps, differs]
    · rw [if_neg here]
      by_cases there : existing.name = other
      · have differs : ¬ other = component := fun equal => here (there.trans equal)
        simp [childNamed, there, differs]
      · have skip (nodes : List DirNode) : childNamed other (existing :: nodes) = childNamed other nodes := by
          simp [childNamed, there]
        have skip_own : childNamed component (existing :: rest) = childNamed component rest := by
          simp [childNamed, here]
        rw [skip, skip, skip_own, ih]

/-- A page takes the place of its directory's page, and no other directory's. -/
theorem indexAt_insert (page : Nat) (index : Bool) (path other : List Bytes) (node : DirNode) :
    indexAt other (node.insert page index path) =
      if index = true ∧ other = path then some page else indexAt other node := by
  induction path generalizing other node with
  | nil =>
    obtain ⟨name, index_page, own, children⟩ := node
    cases index <;> cases other <;> simp [DirNode.insert, indexAt, DirNode.index_page, DirNode.children]
  | cons component path ih =>
    obtain ⟨name, index_page, own, children⟩ := node
    cases other with
    | nil => simp [DirNode.insert, indexAt, DirNode.index_page]
    | cons head tail =>
      rw [DirNode.insert, indexAt, indexAt, DirNode.children, DirNode.children,
        childNamed_change (insert_name page index path)]
      by_cases same : head = component
      · rw [if_pos same, ih, same]
        simp
      · rw [if_neg same, if_neg (by simp [same])]

theorem count_changeChild {component : Bytes} {change : DirNode → DirNode} {page lost gained : Nat}
    (children : List DirNode)
    (changed : (pagesOf (change (childNamed component children))).count page + lost
      = (pagesOf (childNamed component children)).count page + gained) :
    (pagesOfAll (changeChild component change children)).count page + lost
      = (pagesOfAll children).count page + gained := by
  induction children with
  | nil =>
    have nothing : pagesOf (childNamed component []) = [] := rfl
    rw [nothing] at changed
    simp only [changeChild, pagesOfAll, List.append_nil]
    exact changed
  | cons existing rest ih =>
    rw [changeChild]
    by_cases here : existing.name = component
    · have first : childNamed component (existing :: rest) = existing := by simp [childNamed, here]
      rw [first] at changed
      rw [if_pos here, pagesOfAll, pagesOfAll, List.count_append, List.count_append]
      omega
    · have skip : childNamed component (existing :: rest) = childNamed component rest := by simp [childNamed, here]
      rw [skip] at changed
      have later := ih changed
      rw [if_neg here, pagesOfAll, pagesOfAll, List.count_append, List.count_append]
      omega

/-- A page put into the tree adds itself and loses the page it replaces. -/
theorem count_insert (page other : Nat) (index : Bool) (path : List Bytes) (node : DirNode) :
    (pagesOf (node.insert page index path)).count other
        + (if index = true ∧ indexAt path node = some other then 1 else 0)
      = (pagesOf node).count other + if page = other then 1 else 0 := by
  induction path generalizing node with
  | nil =>
    obtain ⟨name, index_page, own, children⟩ := node
    cases index with
    | true =>
      cases index_page with
      | none => simp [DirNode.insert, pagesOf, indexAt, DirNode.index_page, List.count_cons]
      | some old =>
        simp only [DirNode.insert, pagesOf, indexAt, DirNode.index_page, if_true, Option.toList_some,
          List.cons_append, List.count_cons, true_and, Option.some.injEq, beq_iff_eq]
        omega
    | false =>
      simp only [DirNode.insert, pagesOf, List.count_append, List.count_singleton, Bool.false_eq_true, if_false,
        false_and, beq_iff_eq]
      omega
  | cons component path ih =>
    obtain ⟨name, index_page, own, children⟩ := node
    have below := count_changeChild children (ih (childNamed component children))
    rw [DirNode.insert, pagesOf, pagesOf, indexAt, DirNode.children]
    simp only [List.count_append]
    omega

/-- A later index page of the same directory takes an index page's place. -/
def Replaces (other page : DocsPage) : Prop :=
  other.listed = true ∧ other.isIndex = true ∧ page.isIndex = true ∧ other.path = page.path

/-- The page is in the tree when the first `bound` pages are. -/
def Shown (pages : List DocsPage) (bound index : Nat) : Prop :=
  index < bound ∧ ∃ page, pages[index]? = some page ∧ page.listed = true ∧
    ∀ later other, index < later → later < bound → pages[later]? = some other → ¬ Replaces other page

/-- What the tree holds when the first `bound` pages are in it. -/
structure Placed (pages : List DocsPage) (bound : Nat) (tree : DirNode) : Prop where
  shown : ∀ index, Shown pages bound index → (pagesOf tree).count index = 1
  hidden : ∀ index, ¬ Shown pages bound index → (pagesOf tree).count index = 0
  holder : ∀ path index, indexAt path tree = some index ↔
    Shown pages bound index ∧ ∃ page, pages[index]? = some page ∧ page.isIndex = true ∧ page.path = path

/-- One page more: it is shown when it is listed, and the others where it does
not replace them. -/
theorem shown_succ {bound index : Nat} {page : DocsPage} (next : pages[bound]? = some page) :
    Shown pages (bound + 1) index ↔
      index = bound ∧ page.listed = true ∨
        Shown pages bound index ∧ ∀ own, pages[index]? = some own → ¬ Replaces page own := by
  constructor
  · rintro ⟨below, own, held, listed, kept⟩
    rcases Nat.lt_succ_iff_lt_or_eq.mp below with before | rfl
    · refine .inr ⟨⟨before, own, held, listed, fun later other behind inside => kept later other behind (by omega)⟩, ?_⟩
      intro same there
      rw [held] at there
      cases there
      exact kept bound page before (Nat.lt_succ_self _) next
    · rw [next] at held
      cases held
      exact .inl ⟨rfl, listed⟩
  · rintro (⟨rfl, listed⟩ | ⟨⟨before, own, held, listed, kept⟩, stays⟩)
    · exact ⟨Nat.lt_succ_self _, page, next, listed, fun later other behind inside => by omega⟩
    · refine ⟨by omega, own, held, listed, fun later other behind inside there => ?_⟩
      rcases Nat.lt_succ_iff_lt_or_eq.mp inside with earlier | rfl
      · exact kept later other behind earlier there
      · rw [next] at there
        cases there
        exact stays own held

theorem not_shown_self (pages : List DocsPage) (bound : Nat) : ¬ Shown pages bound bound :=
  fun shown => absurd shown.1 (Nat.lt_irrefl _)

/-- A page that is not listed leaves the tree. -/
theorem placed_skip {bound : Nat} {tree : DirNode} {page : DocsPage} (h : Placed pages bound tree)
    (next : pages[bound]? = some page) (skipped : page.listed = false) : Placed pages (bound + 1) tree := by
  have same (index : Nat) : Shown pages (bound + 1) index ↔ Shown pages bound index := by
    rw [shown_succ next, skipped]
    have idle (own : DocsPage) : ¬ Replaces page own := fun replaces => by
      rw [replaces.1] at skipped
      cases skipped
    exact ⟨fun shown => (shown.resolve_left nofun).1, fun shown => .inr ⟨shown, fun own _ => idle own⟩⟩
  exact ⟨fun index shown => h.shown index ((same index).mp shown),
    fun index hidden => h.hidden index fun shown => hidden ((same index).mpr shown),
    fun path index => by rw [h.holder, same]⟩

section
variable {bound : Nat} {tree : DirNode} {page : DocsPage}

/-- The page that a listed one takes the place of. -/
theorem Placed.replaced (h : Placed pages bound tree) (listed : page.listed = true) {index : Nat}
    (shown : Shown pages bound index) :
    (page.isIndex = true ∧ indexAt page.path tree = some index) ↔
      ∃ own, pages[index]? = some own ∧ Replaces page own := by
  rw [h.holder]
  constructor
  · rintro ⟨kind, -, own, held, own_kind, path⟩
    exact ⟨own, held, listed, kind, own_kind, path.symm⟩
  · rintro ⟨own, held, -, kind, own_kind, path⟩
    exact ⟨kind, shown, own, held, own_kind, path.symm⟩

theorem Placed.shown_insert (h : Placed pages bound tree) (next : pages[bound]? = some page)
    (listed : page.listed = true) {index : Nat} (shown : Shown pages (bound + 1) index) :
    (pagesOf (tree.insert bound page.isIndex page.path)).count index = 1 := by
  have total := count_insert bound index page.isIndex page.path tree
  rcases (shown_succ next).mp shown with ⟨rfl, -⟩ | ⟨before, stays⟩
  · have none_yet := h.hidden index (not_shown_self pages index)
    have other : ¬ (page.isIndex = true ∧ indexAt page.path tree = some index) := fun held =>
      not_shown_self pages index ((h.holder _ _).mp held.2).1
    rw [if_neg other, if_pos rfl] at total
    omega
  · have one := h.shown index before
    have kept : ¬ (page.isIndex = true ∧ indexAt page.path tree = some index) := fun held => by
      obtain ⟨own, there, replaces⟩ := (h.replaced listed before).mp held
      exact stays own there replaces
    have other : ¬ bound = index := fun same => absurd before.1 (by omega)
    rw [if_neg kept, if_neg other] at total
    omega

theorem Placed.hidden_insert (h : Placed pages bound tree) (next : pages[bound]? = some page)
    (listed : page.listed = true) {index : Nat} (hidden : ¬ Shown pages (bound + 1) index) :
    (pagesOf (tree.insert bound page.isIndex page.path)).count index = 0 := by
  have total := count_insert bound index page.isIndex page.path tree
  have other : ¬ bound = index := fun same => hidden ((shown_succ next).mpr (.inl ⟨same.symm, listed⟩))
  rw [if_neg other] at total
  by_cases before : Shown pages bound index
  · have one := h.shown index before
    have lost : page.isIndex = true ∧ indexAt page.path tree = some index := by
      rw [h.replaced listed before]
      by_contra kept
      exact hidden ((shown_succ next).mpr (.inr ⟨before, fun own there replaces => kept ⟨own, there, replaces⟩⟩))
    rw [if_pos lost] at total
    omega
  · have none_there := h.hidden index before
    omega

theorem Placed.holder_insert (h : Placed pages bound tree) (next : pages[bound]? = some page)
    (listed : page.listed = true) (path : List Bytes) (index : Nat) :
    indexAt path (tree.insert bound page.isIndex page.path) = some index ↔
      Shown pages (bound + 1) index ∧ ∃ own, pages[index]? = some own ∧ own.isIndex = true ∧ own.path = path := by
  rw [indexAt_insert, shown_succ next]
  split
  · rename_i here
    obtain ⟨kind, rfl⟩ := here
    constructor
    · intro same
      cases same
      exact ⟨.inl ⟨rfl, listed⟩, page, next, kind, rfl⟩
    · rintro ⟨⟨rfl, -⟩ | ⟨-, stays⟩, own, held, own_kind, path⟩
      · rfl
      · exact absurd ⟨listed, kind, own_kind, path.symm⟩ (stays own held)
  · rename_i elsewhere
    rw [h.holder]
    constructor
    · rintro ⟨shown, own, held, own_kind, path_eq⟩
      refine ⟨.inr ⟨shown, fun same there replaces => ?_⟩, own, held, own_kind, path_eq⟩
      rw [held] at there
      cases there
      exact elsewhere ⟨replaces.2.1, path_eq.symm.trans replaces.2.2.2.symm⟩
    · rintro ⟨⟨rfl, -⟩ | ⟨shown, -⟩, own, held, own_kind, path_eq⟩
      · rw [next] at held
        cases held
        exact absurd ⟨own_kind, path_eq.symm⟩ elsewhere
      · exact ⟨shown, own, held, own_kind, path_eq⟩

/-- A listed page enters the tree, and an index page replaces its directory's. -/
theorem placed_insert (h : Placed pages bound tree) (next : pages[bound]? = some page) (listed : page.listed = true) :
    Placed pages (bound + 1) (tree.insert bound page.isIndex page.path) :=
  { shown := fun _ shown => h.shown_insert next listed shown
    hidden := fun _ hidden => h.hidden_insert next listed hidden
    holder := h.holder_insert next listed }

end

/-- The pages from an index on, put into the tree one after another. -/
theorem placed_pages {tree : DirNode} {before rest : List DocsPage} (h : Placed (before ++ rest) before.length tree) :
    Placed (before ++ rest) (before ++ rest).length (insertPages tree before.length rest) := by
  induction rest generalizing before tree with
  | nil =>
    rw [List.append_nil] at h ⊢
    exact h
  | cons page rest ih =>
    have next : (before ++ page :: rest)[before.length]? = some page := by simp
    have step : Placed (before ++ page :: rest) (before.length + 1) (insertPage tree page before.length) := by
      rw [insertPage]
      split
      · rename_i listed
        exact placed_insert h next listed
      · rename_i skipped
        exact placed_skip h next (Bool.eq_false_of_not_eq_true skipped)
    have shift : before ++ page :: rest = (before ++ [page]) ++ rest := by simp
    have count : before.length + 1 = (before ++ [page]).length := by simp
    rw [insertPages, shift, count]
    rw [shift, count] at step
    exact ih step

theorem placed_derived (site : Pages) : Placed site.pages site.pages.length (derivedTree site) := by
  have start : Placed ([] ++ site.pages) ([] : List DocsPage).length (emptyDir []) := by
    refine ⟨fun index shown => absurd shown.1 (Nat.not_lt_zero _), fun index _ => rfl, fun path index => ?_⟩
    rw [indexAt_empty]
    exact ⟨nofun, fun held => absurd held.1.1 (Nat.not_lt_zero _)⟩
  exact placed_pages start

end CkGit.DocsNav
