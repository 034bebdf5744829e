import CkGit.DocsNav.Listed

/-!
A navigation loses no page: a configured one never, a derived one exactly when
no index page takes another's place and the home page is not excluded.
-/
namespace CkGit.DocsNav
open CkGit.Base CkGit.Ci

variable {site : Pages} {index : Nat} {page : DocsPage}

theorem pageAt_eq {pages : List DocsPage} (held : pages[index]? = some page) : pageAt pages index = page := by
  rw [pageAt, held]
  rfl

/-- One page is written to the place of the home page. -/
theorem home_only (held : site.pages[index]? = some page) (home : page.home = true) : index = site.home := by
  obtain ⟨own, there, own_home⟩ := site.is_home
  have same : (site.pages.map DocsPage.output)[index]? = (site.pages.map DocsPage.output)[site.home]? := by
    rw [List.getElem?_map, List.getElem?_map, held, there, Option.map_some, Option.map_some, DocsPage.output,
      DocsPage.output, home, own_home]
    rfl
  obtain ⟨below, -⟩ := List.getElem?_eq_some_iff.mp held
  exact (List.getElem?_inj (by rwa [List.length_map]) site.outputs).mp same

theorem home_not_listed (site : Pages) : (pageAt site.pages site.home).listed = false := by
  obtain ⟨own, there, own_home⟩ := site.is_home
  rw [pageAt_eq there, DocsPage.listed, own_home]
  rfl

/-- The navigation of a site without a nav. -/
def derivedNavigation (site : Pages) (config : NavConfig) : DocsNavigation :=
  navigation site.pages (.mk config.home_title (some site.home) [] :: topItems site.pages (derivedTree site))
    (fun index => index == site.home || (pageAt site.pages index).listed) config.nav_titles

theorem derived_order (site : Pages) (config : NavConfig) :
    (derivedNavigation site config).reading_order = site.home :: orderOf site.pages (derivedTree site) := by
  have top : (derivedTree site).index_page = none := by
    have holder := (placed_derived site).holder []
    cases held : (derivedTree site).index_page with
    | none => rfl
    | some index =>
      obtain ⟨-, own, -, kind, path⟩ := (holder index).mp held
      rw [DocsPage.isIndex, path] at kind
      simp at kind
  have items : collectAll (topItems site.pages (derivedTree site)) = orderOf site.pages (derivedTree site) := by
    rw [← collect_convert site.pages (derivedTree site) 0, topItems]
    generalize derivedTree site = tree at top
    obtain ⟨name, index_page, own, children⟩ := tree
    cases top
    rfl
  rw [derivedNavigation, navigation, collect_translateTitles, collectAll, items]
  rfl

/-- A derived navigation as it should be: the home page first, every page that is
not excluded read once and not unlisted, every other page unlisted once and not
read, no item too deep, every group ordered by key. -/
structure Derived (site : Pages) (navigation : DocsNavigation) : Prop where
  listed : ∀ (index : Nat) (page : DocsPage), site.pages[index]? = some page → page.nav_exclude = false →
    navigation.reading_order.count index = 1 ∧ navigation.unlisted.count index = 0
  unlisted : ∀ (index : Nat) (page : DocsPage), site.pages[index]? = some page → page.nav_exclude = true →
    navigation.unlisted.count index = 1 ∧ navigation.reading_order.count index = 0
  home : navigation.reading_order.head? = some site.home
  depth : ∀ tab ∈ navigation.nav, tab.Fits kMaximumDocsNavDepth
  ordered : ∀ group, (derivedTree site).Within group → Grouped site.pages navigation.reading_order group

/-- The home page is not excluded, and no index page takes another's place. -/
def Undisplaced (site : Pages) : Prop :=
  (pageAt site.pages site.home).nav_exclude = false ∧
    ∀ (index later : Nat) (page other : DocsPage), index < later → site.pages[index]? = some page →
      site.pages[later]? = some other → page.listed = true → ¬ Replaces other page

variable {config : NavConfig}

theorem derived_count (site : Pages) (config : NavConfig) (index : Nat) :
    (derivedNavigation site config).reading_order.count index
      = (pagesOf (derivedTree site)).count index + if site.home = index then 1 else 0 := by
  rw [derived_order, List.count_cons, (order_perm site.pages (derivedTree site)).count_eq]
  simp only [beq_iff_eq]

theorem unlisted_count (held : site.pages[index]? = some page) :
    (derivedNavigation site config).unlisted.count index
      = if site.home = index ∨ page.listed = true then 0 else 1 := by
  obtain ⟨below, -⟩ := List.getElem?_eq_some_iff.mp held
  have nodup : ((List.range site.pages.length).filter
      fun index => !(index == site.home || (pageAt site.pages index).listed)).Nodup := List.nodup_range.filter _
  rw [derivedNavigation, navigation]
  simp only [nodup.count, List.mem_filter, List.mem_range, pageAt_eq held]
  by_cases home : site.home = index
  · simp [home]
  · have other : ¬ index = site.home := fun same => home same.symm
    cases listed : page.listed <;> simp [home, other, below]

/-- The home page is read once, whatever its front matter says. -/
theorem home_count (site : Pages) (config : NavConfig) :
    (derivedNavigation site config).reading_order.count site.home = 1 := by
  have hidden : ¬ Shown site.pages site.pages.length site.home := by
    rintro ⟨-, own, held, listed, -⟩
    have home := home_not_listed site
    rw [pageAt_eq held, listed] at home
    cases home
  rw [derived_count, (placed_derived site).hidden _ hidden, if_pos rfl]

theorem listed_iff (held : site.pages[index]? = some page) (other : ¬ site.home = index) :
    page.listed = !page.nav_exclude := by
  have away : page.home = false := Bool.eq_false_of_not_eq_true fun home => other (home_only held home).symm
  rw [DocsPage.listed, away]
  rfl

theorem derived_of_undisplaced (h : Undisplaced site) : Derived site (derivedNavigation site config) := by
  obtain ⟨home_kept, stays⟩ := h
  refine ⟨fun index page held kept => ?_, fun index page held excluded => ?_, ?_, fun tab inside => ?_,
    fun group inside => ?_⟩
  · rw [unlisted_count held]
    by_cases home : site.home = index
    · subst home
      exact ⟨home_count site config, by simp⟩
    · have listed := listed_iff held home
      rw [kept] at listed
      obtain ⟨below, -⟩ := List.getElem?_eq_some_iff.mp held
      have shown : Shown site.pages site.pages.length index :=
        ⟨below, page, held, listed, fun later other behind _ there =>
          stays index later page other behind held there listed⟩
      rw [derived_count, (placed_derived site).shown index shown, if_neg home, if_pos (.inr listed)]
      exact ⟨rfl, rfl⟩
  · have home : ¬ site.home = index := fun same => by
      rw [same, pageAt_eq held, excluded] at home_kept
      cases home_kept
    have listed := listed_iff held home
    rw [excluded] at listed
    have hidden : ¬ Shown site.pages site.pages.length index := by
      rintro ⟨-, own, there, own_listed, -⟩
      rw [held] at there
      cases there
      rw [listed] at own_listed
      cases own_listed
    rw [unlisted_count held, derived_count, (placed_derived site).hidden index hidden, if_neg home,
      if_neg (by simp [home, listed])]
    exact ⟨rfl, rfl⟩
  · rw [derived_order]
    rfl
  · rw [derivedNavigation, navigation, translateTitles_eq] at inside
    obtain ⟨item, held, rfl⟩ := List.mem_map.mp inside
    refine translate_fits config.nav_titles ?_
    rcases List.mem_cons.mp held with rfl | below
    · exact fits_leaf (by decide) rfl
    · exact convert_fits site.pages (derivedTree site) 0 item below
  · obtain ⟨entries, same, sorted, stretch⟩ : Grouped site.pages _ group := grouped_within inside
    refine ⟨entries, same, sorted, stretch.trans ?_⟩
    rw [derived_order]
    exact (List.suffix_cons _ _).isInfix

theorem undisplaced_of_derived (h : Derived site (derivedNavigation site config)) : Undisplaced site := by
  refine ⟨?_, fun index later page other behind held there listed replaces => ?_⟩
  · obtain ⟨own, held, -⟩ := site.is_home
    rw [pageAt_eq held]
    by_contra excluded
    have unread := (h.unlisted site.home own held (Bool.eq_true_of_not_eq_false excluded)).2
    rw [home_count] at unread
    cases unread
  · have home : ¬ site.home = index := fun same => by
      have away := home_not_listed site
      rw [same, pageAt_eq held, listed] at away
      cases away
    have kept : page.nav_exclude = false := by
      have excluded := listed_iff held home
      rw [listed] at excluded
      simpa using excluded
    have read := (h.listed index page held kept).1
    have hidden : ¬ Shown site.pages site.pages.length index := by
      rintro ⟨-, own, same, -, stays⟩
      rw [held] at same
      cases same
      obtain ⟨below, -⟩ := List.getElem?_eq_some_iff.mp there
      exact stays later other behind below there replaces
    rw [derived_count, (placed_derived site).hidden index hidden, if_neg home] at read
    cases read

mutual

/-- The pages an entry names. -/
def namesOf : DocsNavEntry → List Bytes
  | .page _ page => [page]
  | .group _ entries => namesOfAll entries

def namesOfAll : List DocsNavEntry → List Bytes
  | [] => []
  | entry :: rest => namesOf entry ++ namesOfAll rest

end

variable {pages : List DocsPage} {skipped : List Bytes}

/-- The pages of the names that are not left out. -/
def resolved (pages : List DocsPage) (skipped names : List Bytes) : List Nat :=
  (names.filter (· ∉ skipped)).filterMap (bySource pages)

theorem resolved_append (names more : List Bytes) :
    resolved pages skipped (names ++ more) = resolved pages skipped names ++ resolved pages skipped more := by
  rw [resolved, List.filter_append, List.filterMap_append]
  rfl

mutual

/-- The items of an entry are read in the order in which it names their pages. -/
theorem resolveEntry_read : ∀ (entry : DocsNavEntry) (item : Option DocsNavItem) (mentioned : List Nat),
    resolveEntry pages skipped entry = .ok (item, mentioned) →
    collectAll item.toList = mentioned ∧ mentioned = resolved pages skipped (namesOf entry)
  | .page title name, item, mentioned, done => by
    rw [resolveEntry] at done
    split at done
    · rename_i left_out
      cases done
      exact ⟨rfl, by simp [namesOf, resolved, left_out]⟩
    · rename_i wanted
      split at done
      · cases done
      · rename_i found there
        cases done
        exact ⟨rfl, by simp [namesOf, resolved, wanted, there]⟩
  | .group title entries, item, mentioned, done => by
    rw [resolveEntry] at done
    split at done
    · cases done
    · rename_i children inner resolves
      obtain ⟨read, names⟩ := resolveNav_read entries children inner resolves
      split at done
      · rename_i empty
        cases done
        rw [List.isEmpty_iff.mp empty.1] at read
        exact ⟨read, names⟩
      · cases done
        refine ⟨?_, names⟩
        rw [Option.toList_some, collectAll, collectReadingOrder, collectAll, List.append_nil]
        exact read

theorem resolveNav_read : ∀ (entries : List DocsNavEntry) (items : List DocsNavItem) (mentioned : List Nat),
    resolveNav pages skipped entries = .ok (items, mentioned) →
    collectAll items = mentioned ∧ mentioned = resolved pages skipped (namesOfAll entries)
  | [], items, mentioned, done => by
    rw [resolveNav] at done
    cases done
    exact ⟨rfl, rfl⟩
  | entry :: rest, items, mentioned, done => by
    rw [resolveNav] at done
    split at done
    · cases done
    · rename_i item first resolves
      split at done
      · cases done
      · rename_i others more later
        cases done
        obtain ⟨read, names⟩ := resolveEntry_read entry item first resolves
        obtain ⟨rest_read, rest_names⟩ := resolveNav_read rest others more later
        rw [collectAll_eq, List.flatMap_append, ← collectAll_eq, ← collectAll_eq, read, rest_read, namesOfAll,
          resolved_append, ← names, ← rest_names]
        exact ⟨rfl, rfl⟩

end

/-- The page of a source is the one that has it. -/
theorem bySource_iff (site : Pages) (held : site.pages[index]? = some page) (name : Bytes) :
    bySource site.pages name = some index ↔ page.source = name := by
  obtain ⟨below, own⟩ := List.getElem?_eq_some_iff.mp held
  rw [bySource, List.findIdx?_eq_some_iff_getElem]
  constructor
  · rintro ⟨_, same, _⟩
    rw [own] at same
    exact of_decide_eq_true same
  · intro same
    refine ⟨below, by simpa [own] using same, fun earlier before found => ?_⟩
    have twice : (site.pages.map DocsPage.source)[earlier]? = (site.pages.map DocsPage.source)[index]? := by
      rw [List.getElem?_map, List.getElem?_map, held, List.getElem?_eq_getElem (before.trans below), Option.map_some,
        Option.map_some, of_decide_eq_true found, same]
    have equal := (List.getElem?_inj (by rw [List.length_map]; omega) site.sources).mp twice
    omega

theorem mem_resolved (site : Pages) (held : site.pages[index]? = some page) (names : List Bytes) :
    index ∈ resolved site.pages site.skipped names ↔ page.source ∈ names := by
  rw [resolved, List.mem_filterMap]
  constructor
  · rintro ⟨name, chosen, found⟩
    rw [(bySource_iff site held name).mp found]
    exact (List.mem_filter.mp chosen).1
  · intro named
    refine ⟨page.source, List.mem_filter.mpr ⟨named, ?_⟩, (bySource_iff site held _).mpr rfl⟩
    exact decide_eq_true (site.apart page (List.mem_of_getElem? held))

/-- A page is read exactly when the nav names it, and unlisted exactly when not. -/
def Configured (site : Pages) (nav : List DocsNavEntry) (navigation : DocsNavigation) : Prop :=
  ∀ (index : Nat) (page : DocsPage), site.pages[index]? = some page →
    (index ∈ navigation.reading_order ↔ page.source ∈ namesOfAll nav) ∧
      (index ∈ navigation.unlisted ↔ page.source ∉ namesOfAll nav)

theorem configured_resolved {nav : List DocsNavEntry} {tabs : List DocsNavItem} {mentioned : List Nat}
    (nav_titles : List (Bytes × Bytes)) (resolves : resolveNav site.pages site.skipped nav = .ok (tabs, mentioned)) :
    Configured site nav (navigation site.pages tabs mentioned.contains nav_titles) := by
  intro index page held
  obtain ⟨read, names⟩ := resolveNav_read nav tabs mentioned resolves
  obtain ⟨below, -⟩ := List.getElem?_eq_some_iff.mp held
  have named := mem_resolved site held (namesOfAll nav)
  rw [← names] at named
  rw [navigation, collect_translateTitles, read, ← named]
  simp [below]

/-- The navigation loses no page. -/
structure Complete (site : Pages) (nav : List DocsNavEntry) (navigation : DocsNavigation) : Prop where
  derived : nav = [] → Derived site navigation
  configured : nav ≠ [] → Configured site nav navigation

/-- A site's navigation loses no page exactly when it is configured, or derived
from pages of which none takes another's place and whose home page is not excluded. -/
theorem navigation_complete_iff (site : Pages) (config : NavConfig) (navigation : DocsNavigation)
    (loaded : loadNavigation site config = .ok navigation) :
    Complete site (config.effectiveNav site) navigation ↔ (config.effectiveNav site = [] → Undisplaced site) := by
  rw [loadNavigation] at loaded
  simp only at loaded
  cases shape : config.effectiveNav site with
  | nil =>
    rw [shape, List.isEmpty_nil, if_pos rfl] at loaded
    have own : derivedNavigation site config = navigation := Except.ok.inj loaded
    subst own
    exact ⟨fun complete _ => undisplaced_of_derived (complete.derived rfl),
      fun undisplaced => ⟨fun _ => derived_of_undisplaced (undisplaced rfl), fun named => absurd rfl named⟩⟩
  | cons entry rest =>
    rw [shape, List.isEmpty_cons, if_neg (by decide)] at loaded
    split at loaded
    · cases loaded
    · rename_i tabs mentioned resolves
      have own := Except.ok.inj loaded
      subst own
      exact ⟨nofun, fun _ => ⟨nofun, fun _ => configured_resolved config.nav_titles resolves⟩⟩

/-- A home page, and an index page with an address of its own beside another. -/
def guidePages : List DocsPage :=
  [{ source := ascii "README.md", counterpart := [], home := true },
    { source := ascii "docs/a/README.md", counterpart := ascii "a/README.md", slug := ascii "overview" },
    { source := ascii "docs/a/index.md", counterpart := ascii "a/index.md" }]

def guideSite : Pages where
  pages := guidePages
  skipped := []
  home := 0
  sources := by decide
  apart _ _ := List.not_mem_nil
  outputs := by decide
  is_home := ⟨_, rfl, rfl⟩

theorem navigation_complete_iff_guide :
    Complete guideSite (NavConfig.effectiveNav {} guideSite) (derivedNavigation guideSite {}) ↔
      (NavConfig.effectiveNav {} guideSite = [] → Undisplaced guideSite) :=
  navigation_complete_iff guideSite {} (derivedNavigation guideSite {}) rfl

/-- The first index page is neither read nor unlisted. -/
theorem index_page_lost : ¬ ∀ (site : Pages) (config : NavConfig) (navigation : DocsNavigation),
    loadNavigation site config = .ok navigation → Complete site (config.effectiveNav site) navigation := by
  intro complete
  have derived := (complete guideSite {} (derivedNavigation guideSite {}) rfl).derived rfl
  have kept := (undisplaced_of_derived derived).2 1 2 _ _ (by decide) rfl rfl rfl
  exact kept ⟨rfl, by decide, by decide, by decide⟩

end CkGit.DocsNav
