import CkGit.DocsNav.Model

/-!
The reading order of a derived navigation: a directory's page, then its pages
and directories in the order of their keys, however deep it is listed.
-/
namespace CkGit.DocsNav
open CkGit.Base CkGit.Ci

variable {pages : List DocsPage}

/-- A key that is not behind another: ordered keys come first, by their number;
equal numbers, and keys without one, go by name. -/
def OrderKey.AtMost (a b : OrderKey) : Prop :=
  (b.ordered = true → a.ordered = true ∧ a.order.toInt ≤ b.order.toInt) ∧
    (a.ordered = b.ordered → (a.ordered = true → a.order.toInt = b.order.toInt) → a.name ≤ b.name)

theorem not_before_iff (a b : OrderKey) : (!b.before a) = true ↔ a.AtMost b := by
  obtain ⟨a_ordered, a_order, a_name⟩ := a
  obtain ⟨b_ordered, b_order, b_name⟩ := b
  cases a_ordered <;> cases b_ordered
  · simp [OrderKey.before, OrderKey.AtMost]
  · simp [OrderKey.before, OrderKey.AtMost]
  · simp [OrderKey.before, OrderKey.AtMost]
  · by_cases same : b_order = a_order
    · simp [OrderKey.before, OrderKey.AtMost, same]
    · have differs : ¬ a_order.toInt = b_order.toInt := fun equal => same (Int32.toInt_inj.mp equal).symm
      simp [OrderKey.before, OrderKey.AtMost, same, differs, Int32.lt_iff_toInt_lt]

theorem OrderKey.AtMost.trans {a b c : OrderKey} (first : a.AtMost b) (second : b.AtMost c) : a.AtMost c := by
  refine ⟨fun last => ?_, fun kind equal => ?_⟩
  · obtain ⟨middle, order⟩ := second.1 last
    exact ⟨(first.1 middle).1, (first.1 middle).2.trans order⟩
  · have kinds : a.ordered = b.ordered ∧ b.ordered = c.ordered := by
      cases ordered : c.ordered with
      | true =>
        have middle := (second.1 ordered).1
        exact ⟨(first.1 middle).1.trans middle.symm, middle⟩
      | false =>
        rw [ordered] at kind
        have middle : b.ordered = false := by
          by_contra held
          rw [(first.1 (Bool.eq_true_of_not_eq_false held)).1] at kind
          cases kind
        exact ⟨kind.trans middle.symm, middle⟩
    have numbers (ordered : a.ordered = true) :
        a.order.toInt = b.order.toInt ∧ b.order.toInt = c.order.toInt := by
      have middle := kinds.1 ▸ ordered
      have last := kinds.2 ▸ middle
      have low := (first.1 middle).2
      have high := (second.1 last).2
      have whole := equal ordered
      omega
    have left := first.2 kinds.1 fun ordered => (numbers ordered).1
    have right := second.2 kinds.2 fun ordered => (numbers (kinds.1 ▸ ordered)).2
    exact List.le_trans left right

theorem atMost_total (a b : OrderKey) : a.AtMost b ∨ b.AtMost a := by
  rw [← not_before_iff, ← not_before_iff]
  obtain ⟨a_ordered, a_order, a_name⟩ := a
  obtain ⟨b_ordered, b_order, b_name⟩ := b
  cases a_ordered <;> cases b_ordered
  · simpa [OrderKey.before] using List.le_total a_name b_name
  · simp [OrderKey.before]
  · simp [OrderKey.before]
  · by_cases same : b_order = a_order
    · simpa [OrderKey.before, same] using List.le_total a_name b_name
    · have other : ¬ a_order = b_order := fun equal => same equal.symm
      simpa [OrderKey.before, same, other] using Int32.le_total a_order b_order

theorem sortChildren_sorted {α : Type} (children : List (OrderKey × α)) :
    (sortChildren children).Pairwise fun a b => a.1.AtMost b.1 := by
  refine (List.pairwise_mergeSort ?_ ?_ children).imp fun ordered => (not_before_iff _ _).mp ordered
  · intro a b c first second
    rw [not_before_iff] at first second ⊢
    exact first.trans second
  · intro a b
    rw [Bool.or_eq_true, not_before_iff, not_before_iff]
    exact atMost_total a.1 b.1

theorem sortChildren_perm {α : Type} (children : List (OrderKey × α)) : (sortChildren children).Perm children :=
  List.mergeSort_perm children _

theorem sortChildren_map {α β : Type} (f : α → β) (children : List (OrderKey × α)) :
    (sortChildren children).map (fun child => (child.1, f child.2))
      = sortChildren (children.map fun child => (child.1, f child.2)) :=
  List.map_mergeSort fun _ _ _ _ => rfl

theorem collectAll_eq (items : List DocsNavItem) : collectAll items = items.flatMap collectReadingOrder := by
  induction items with
  | nil => rfl
  | cons item rest ih => rw [collectAll, ih, List.flatMap_cons]

mutual

/-- Listing an item flat keeps its pages in their order. -/
theorem collect_flatten : ∀ item : DocsNavItem, collectAll (flattenInto item) = collectReadingOrder item
  | .mk title page children => by
    have rest := collect_flattenAll children
    rw [flattenInto, collectReadingOrder, collectAll_eq, List.flatMap_append, ← collectAll_eq, ← collectAll_eq, rest]
    cases page <;> rfl

theorem collect_flattenAll : ∀ items : List DocsNavItem, collectAll (flattenAll items) = collectAll items
  | [] => rfl
  | item :: rest => by
    have first := collect_flatten item
    have later := collect_flattenAll rest
    rw [flattenAll, collectAll, collectAll_eq, List.flatMap_append, ← collectAll_eq, ← collectAll_eq, first, later]

end

theorem collect_place (depth : Nat) (child : DocsNavItem) :
    collectAll (placeChild depth child) = collectReadingOrder child := by
  rw [placeChild]
  split
  · exact collect_flatten child
  · rw [collectAll, collectAll, List.append_nil]

mutual

/-- The pages of a directory in their reading order. -/
def orderOf (pages : List DocsPage) : DirNode → List Nat
  | .mk _ index_page own children =>
    index_page.toList
      ++ (sortChildren (own.map (fun index => (pageKey pages index, [index])) ++ orders pages children)).flatMap Prod.snd

def orders (pages : List DocsPage) : List DirNode → List (OrderKey × List Nat)
  | [] => []
  | child :: rest => (childKey pages child, orderOf pages child) :: orders pages rest

end

mutual

/-- How deep a directory is listed does not change its reading order. -/
theorem collect_convert (pages : List DocsPage) : ∀ (node : DirNode) (depth : Nat),
    collectReadingOrder (convertNode pages depth node) = orderOf pages node
  | .mk name index_page own children, depth => by
    have below := collect_convertChildren pages children (depth + 1)
    have placed (items : List (OrderKey × DocsNavItem)) :
        collectAll (items.flatMap fun child => placeChild depth child.2)
          = (items.map fun child => (child.1, collectReadingOrder child.2)).flatMap Prod.snd := by
      rw [collectAll_eq, List.flatMap_assoc, List.flatMap_map]
      refine List.flatMap_congr fun child _ => ?_
      rw [← collectAll_eq, collect_place]
    simp only [convertNode]
    rw [collectReadingOrder, placed, sortChildren_map, orderOf, List.map_append, List.map_map, below]
    rfl

theorem collect_convertChildren (pages : List DocsPage) : ∀ (nodes : List DirNode) (depth : Nat),
    (convertChildren pages depth nodes).map (fun child => (child.1, collectReadingOrder child.2)) = orders pages nodes
  | [], _ => rfl
  | child :: rest, depth => by
    have first := collect_convert pages child depth
    have later := collect_convertChildren pages rest depth
    rw [convertChildren, orders, List.map_cons, first, later]

end

/-- A directory and the ones below it. -/
inductive DirNode.Within (node : DirNode) : DirNode → Prop
  | self : node.Within node
  | child (group below : DirNode) (inside : node.Within group) (held : below ∈ group.children) : node.Within below

/-- The pages and directories of a group, with the pages each one brings. -/
def groupEntries (pages : List DocsPage) (group : DirNode) : List (OrderKey × List Nat) :=
  group.pages.map (fun index => (pageKey pages index, [index]))
    ++ group.children.map fun child => (childKey pages child, orderOf pages child)

/-- The reading order has the group's page, then its pages and directories by key. -/
def Grouped (pages : List DocsPage) (order : List Nat) (group : DirNode) : Prop :=
  ∃ entries : List (OrderKey × List Nat), entries.Perm (groupEntries pages group) ∧
    entries.Pairwise (fun a b => a.1.AtMost b.1) ∧
    (group.index_page.toList ++ entries.flatMap Prod.snd) <:+: order

theorem orders_eq (pages : List DocsPage) (nodes : List DirNode) :
    orders pages nodes = nodes.map fun child => (childKey pages child, orderOf pages child) := by
  induction nodes with
  | nil => rfl
  | cons child rest ih => rw [orders, ih, List.map_cons]

theorem orderOf_eq (pages : List DocsPage) (group : DirNode) :
    orderOf pages group = group.index_page.toList ++ (sortChildren (groupEntries pages group)).flatMap Prod.snd := by
  obtain ⟨name, index_page, own, children⟩ := group
  rw [orderOf, orders_eq]
  rfl

theorem infix_flatMap {α β : Type} (f : α → List β) {item : α} {items : List α} (held : item ∈ items) :
    f item <:+: items.flatMap f := by
  obtain ⟨before, after, rfl⟩ := List.append_of_mem held
  rw [List.flatMap_append, List.flatMap_cons]
  exact ⟨before.flatMap f, after.flatMap f, by rw [List.append_assoc]⟩

/-- The order of a directory is a stretch of the order of every directory above. -/
theorem orderOf_within {node group : DirNode} (inside : node.Within group) :
    orderOf pages group <:+: orderOf pages node := by
  induction inside with
  | self => exact List.infix_rfl
  | child group below inside held ih =>
    refine List.IsInfix.trans ?_ ih
    rw [orderOf_eq pages group]
    have entry : (childKey pages below, orderOf pages below) ∈ sortChildren (groupEntries pages group) := by
      rw [(sortChildren_perm _).mem_iff, groupEntries, List.mem_append]
      exact .inr (List.mem_map_of_mem held)
    exact (infix_flatMap Prod.snd entry).trans (List.suffix_append _ _).isInfix

theorem grouped_within {node group : DirNode} (inside : node.Within group) :
    Grouped pages (orderOf pages node) group :=
  ⟨sortChildren (groupEntries pages group), sortChildren_perm _, sortChildren_sorted _,
    orderOf_eq pages group ▸ orderOf_within inside⟩

/-- An item of at most so many levels. -/
def DocsNavItem.Fits : Nat → DocsNavItem → Prop
  | 0, _ => False
  | levels + 1, item => ∀ child ∈ item.children, DocsNavItem.Fits levels child

theorem DocsNavItem.Fits.mono {levels more : Nat} {item : DocsNavItem} (h : item.Fits levels) (le : levels ≤ more) :
    item.Fits more := by
  induction levels generalizing item more with
  | zero => exact h.elim
  | succ levels ih =>
    obtain ⟨more, rfl⟩ : ∃ n, more = n + 1 := ⟨more - 1, by omega⟩
    exact fun child held => ih (h child held) (by omega)

theorem fits_leaf {levels : Nat} (some_level : 0 < levels) {item : DocsNavItem} (leaf : item.children = []) :
    item.Fits levels := by
  obtain ⟨levels, rfl⟩ : ∃ n, levels = n + 1 := ⟨levels - 1, by omega⟩
  intro child held
  rw [leaf] at held
  cases held

mutual

theorem flatten_leaves : ∀ (item : DocsNavItem), ∀ flat ∈ flattenInto item, flat.children = []
  | .mk title page children, flat, held => by
    rw [flattenInto, List.mem_append] at held
    rcases held with own | below
    · obtain ⟨index, -, rfl⟩ := List.mem_map.mp own
      rfl
    · exact flattenAll_leaves children flat below

theorem flattenAll_leaves : ∀ (items : List DocsNavItem), ∀ flat ∈ flattenAll items, flat.children = []
  | [], _, held => by cases held
  | item :: rest, flat, held => by
    rw [flattenAll, List.mem_append] at held
    rcases held with first | later
    · exact flatten_leaves item flat first
    · exact flattenAll_leaves rest flat later

end

/-- A placed child has the levels that are left for it. -/
theorem place_fits {depth : Nat} {child : DocsNavItem}
    (below : ∀ grandchild ∈ child.children, grandchild.Fits (max 1 (kMaximumDocsNavDepth - (depth + 1)))) :
    ∀ item ∈ placeChild depth child, item.Fits (max 1 (kMaximumDocsNavDepth - depth)) := by
  intro item held
  have one : 0 < max 1 (kMaximumDocsNavDepth - depth) := by omega
  rw [placeChild] at held
  split at held
  · exact fits_leaf one (flatten_leaves child item held)
  · rename_i shallow
    rw [List.mem_singleton.mp held]
    by_cases leaf : child.children = []
    · exact fits_leaf one leaf
    · have room : depth + 1 < kMaximumDocsNavDepth := by
        by_contra deep
        exact shallow ⟨by simpa using leaf, Nat.le_of_not_lt deep⟩
      have levels : max 1 (kMaximumDocsNavDepth - depth) = max 1 (kMaximumDocsNavDepth - (depth + 1)) + 1 := by omega
      rw [levels]
      exact below

mutual

theorem convert_fits (pages : List DocsPage) : ∀ (node : DirNode) (depth : Nat),
    ∀ item ∈ (convertNode pages depth node).children, item.Fits (max 1 (kMaximumDocsNavDepth - depth))
  | .mk name index_page own children, depth, item, held => by
    simp only [convertNode, DocsNavItem.children] at held
    obtain ⟨child, sorted, placed⟩ := List.mem_flatMap.mp held
    rw [(sortChildren_perm _).mem_iff, List.mem_append] at sorted
    refine place_fits ?_ item placed
    rcases sorted with page | group
    · obtain ⟨index, -, rfl⟩ := List.mem_map.mp page
      intro grandchild none_left
      cases none_left
    · exact convertChildren_fits pages children (depth + 1) child group

theorem convertChildren_fits (pages : List DocsPage) : ∀ (nodes : List DirNode) (depth : Nat),
    ∀ child ∈ convertChildren pages depth nodes,
      ∀ item ∈ child.2.children, item.Fits (max 1 (kMaximumDocsNavDepth - depth))
  | [], _, _, held => by cases held
  | node :: rest, depth, child, held => by
    rw [convertChildren, List.mem_cons] at held
    rcases held with rfl | later
    · exact convert_fits pages node depth
    · exact convertChildren_fits pages rest depth child later

end

mutual

theorem collect_translate (nav_titles : List (Bytes × Bytes)) :
    ∀ item : DocsNavItem, collectReadingOrder (translateTitle nav_titles item) = collectReadingOrder item
  | .mk title page children => by
    have below := collect_translateTitles nav_titles children
    rw [translateTitle, collectReadingOrder, collectReadingOrder, below]

theorem collect_translateTitles (nav_titles : List (Bytes × Bytes)) :
    ∀ items : List DocsNavItem, collectAll (translateTitles nav_titles items) = collectAll items
  | [] => rfl
  | item :: rest => by
    have first := collect_translate nav_titles item
    have later := collect_translateTitles nav_titles rest
    rw [translateTitles, collectAll, collectAll, first, later]

end

theorem translateTitles_eq (nav_titles : List (Bytes × Bytes)) (items : List DocsNavItem) :
    translateTitles nav_titles items = items.map (translateTitle nav_titles) := by
  induction items with
  | nil => rfl
  | cons item rest ih => rw [translateTitles, ih, List.map_cons]

theorem translate_fits (nav_titles : List (Bytes × Bytes)) {levels : Nat} {item : DocsNavItem} (h : item.Fits levels) :
    (translateTitle nav_titles item).Fits levels := by
  induction levels generalizing item with
  | zero => exact h.elim
  | succ levels ih =>
    obtain ⟨title, page, children⟩ := item
    intro child held
    rw [translateTitle, DocsNavItem.children, translateTitles_eq] at held
    obtain ⟨own, inside, rfl⟩ := List.mem_map.mp held
    exact ih (h own inside)

end CkGit.DocsNav
