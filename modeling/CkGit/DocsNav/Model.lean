import CkGit.Ci.Names

/-!
The navigation of a documentation site: the tree of directories that loadTree
builds over its pages, or the nav of the configuration, made into tabs and a
reading order (src/common/docs_site.cpp).
-/
namespace CkGit.DocsNav
open CkGit.Base CkGit.Ci

def kMaximumDocsNavDepth : Nat := 4

def dot : UInt8 := '.'.toUInt8
def dash : UInt8 := '-'.toUInt8
def underscore : UInt8 := '_'.toUInt8
def blank : UInt8 := ' '.toUInt8

def directoryOf (path : Bytes) : Bytes := [slash].intercalate (path.splitOn slash).dropLast

def basenameOf (path : Bytes) : Bytes := (path.splitOn slash).getLastD []

def stemOf (base : Bytes) : Bytes :=
  let stem := (base.reverse.dropWhile (· ≠ dot)).tail.reverse
  if stem.isEmpty then base else stem

def lowerAscii (text : Bytes) : Bytes := text.map toLower

def isIndexName (base : Bytes) : Bool :=
  let stem := lowerAscii (stemOf base)
  stem = ascii "readme" || stem = ascii "index"

def endsWith (text ending : Bytes) : Bool := ending.isSuffixOf text

def hasMarkdownExtension (path : Bytes) : Bool :=
  endsWith (lowerAscii path) (ascii ".md") || endsWith (lowerAscii path) (ascii ".markdown")

def slugOutput (slug directory : Bytes) : Bytes :=
  let path :=
    if slug.head? = some slash then slug.tail
    else if directory.isEmpty then slug
    else directory ++ [slash] ++ slug
  if path.isEmpty ∨ path.getLast? = some slash then path ++ ascii "index.html"
  else if endsWith (lowerAscii path) (ascii ".html") then path
  else path ++ ascii ".html"

def docsTitleFromFilename (name : Bytes) : Bytes :=
  let base := basenameOf name
  let base := if hasMarkdownExtension base then stemOf base else base
  let digits := (base.takeWhile isDigit).length
  let numbered := digits > 0 && digits + 1 < base.length && (base[digits]? = some dash || base[digits]? = some underscore)
  let base := if numbered then base.drop (digits + 1) else base
  let spaced := base.map fun byte => if byte = dash ∨ byte = underscore then blank else byte
  let title := (spaced.reverse.dropWhile (· = blank)).reverse.dropWhile (· = blank)
  match if title.isEmpty then base else title with
  | [] => []
  | first :: rest => (if isLowerCase first then first - 32 else first) :: rest

/-- The fields of a page that the navigation reads; `counterpart` is its path in
the page tree, `alias_path` the path it has in the tree of the other language. -/
structure DocsPage where
  source : Bytes
  counterpart : Bytes
  alias_path : Bytes := []
  title : Bytes := []
  nav_title : Bytes := []
  slug : Bytes := []
  nav_order : Option Int32 := none
  nav_exclude : Bool := false
  home : Bool := false

def DocsPage.output (page : DocsPage) : Bytes :=
  if page.home then ascii "index.html"
  else
    let directory := directoryOf page.counterpart
    let base := basenameOf page.counterpart
    let before := if directory.isEmpty then [] else directory ++ [slash]
    if ¬ page.slug.isEmpty then slugOutput page.slug directory
    else if isIndexName base then before ++ ascii "index.html"
    else before ++ stemOf base ++ ascii ".html"

/-- The pages of a site: files of their own beside those left out, no two written
to one place, and a home page among them. -/
structure Pages where
  pages : List DocsPage
  skipped : List Bytes
  home : Nat
  sources : (pages.map DocsPage.source).Nodup
  apart : ∀ page ∈ pages, page.source ∉ skipped
  outputs : (pages.map DocsPage.output).Nodup
  is_home : ∃ page, pages[home]? = some page ∧ page.home = true

def navTitle (page : DocsPage) : Bytes := if page.nav_title.isEmpty then page.title else page.nav_title

inductive DocsNavItem where
  | mk (title : Bytes) (page : Option Nat) (children : List DocsNavItem)

def DocsNavItem.children : DocsNavItem → List DocsNavItem
  | .mk _ _ children => children

mutual

def collectReadingOrder : DocsNavItem → List Nat
  | .mk _ page children => page.toList ++ collectAll children

def collectAll : List DocsNavItem → List Nat
  | [] => []
  | item :: rest => collectReadingOrder item ++ collectAll rest

end

mutual

def flattenInto : DocsNavItem → List DocsNavItem
  | .mk title page children => (page.toList.map fun page => .mk title (some page) []) ++ flattenAll children

def flattenAll : List DocsNavItem → List DocsNavItem
  | [] => []
  | item :: rest => flattenInto item ++ flattenAll rest

end

mutual

/-- The titles of a translation. -/
def translateTitle (nav_titles : List (Bytes × Bytes)) : DocsNavItem → DocsNavItem
  | .mk title page children => .mk ((nav_titles.lookup title).getD title) page (translateTitles nav_titles children)

def translateTitles (nav_titles : List (Bytes × Bytes)) : List DocsNavItem → List DocsNavItem
  | [] => []
  | item :: rest => translateTitle nav_titles item :: translateTitles nav_titles rest

end

structure OrderKey where
  ordered : Bool
  order : Int32
  name : Bytes
deriving DecidableEq

def OrderKey.before (a b : OrderKey) : Bool :=
  if a.ordered ≠ b.ordered then a.ordered
  else if a.ordered ∧ a.order ≠ b.order then a.order < b.order
  else a.name < b.name

def keyFor (page : DocsPage) (name : Bytes) : OrderKey :=
  { ordered := page.nav_order.isSome, order := page.nav_order.getD 0, name }

inductive DirNode where
  | mk (name : Bytes) (index_page : Option Nat) (pages : List Nat) (children : List DirNode)

def DirNode.name : DirNode → Bytes
  | .mk name _ _ _ => name

def DirNode.index_page : DirNode → Option Nat
  | .mk _ index_page _ _ => index_page

def DirNode.pages : DirNode → List Nat
  | .mk _ _ pages _ => pages

def DirNode.children : DirNode → List DirNode
  | .mk _ _ _ children => children

def emptyDir (name : Bytes) : DirNode := .mk name none [] []

/-- DirNode::child: the directory of a name, made when there is none, changed. -/
def changeChild (component : Bytes) (change : DirNode → DirNode) : List DirNode → List DirNode
  | [] => [change (emptyDir component)]
  | existing :: rest =>
    if existing.name = component then change existing :: rest
    else existing :: changeChild component change rest

/-- A page put where its path leads from a directory; `index` is whether it
becomes the directory's page. -/
def DirNode.insert (page : Nat) (index : Bool) : List Bytes → DirNode → DirNode
  | [], .mk name index_page pages children =>
    if index then .mk name (some page) pages children else .mk name index_page (pages ++ [page]) children
  | component :: path, .mk name index_page pages children =>
    .mk name index_page pages (changeChild component (DirNode.insert page index path) children)

/-- The directories on the way to a page. -/
def DocsPage.path (page : DocsPage) : List Bytes := (page.counterpart.splitOn slash).dropLast

/-- The page of its directory: an index page below the top. -/
def DocsPage.isIndex (page : DocsPage) : Bool := isIndexName (basenameOf page.counterpart) && !page.path.isEmpty

def DocsPage.listed (page : DocsPage) : Bool := !page.home && !page.nav_exclude

def insertPage (tree : DirNode) (page : DocsPage) (index : Nat) : DirNode :=
  if page.listed then tree.insert index page.isIndex page.path else tree

/-- The pages from an index on put into a tree. -/
def insertPages (tree : DirNode) (index : Nat) : List DocsPage → DirNode
  | [] => tree
  | page :: rest => insertPages (insertPage tree page index) (index + 1) rest

def derivedTree (site : Pages) : DirNode := insertPages (emptyDir []) 0 site.pages

def pageAt (pages : List DocsPage) (index : Nat) : DocsPage := pages[index]?.getD { source := [], counterpart := [] }

/-- Children in the order of their keys. -/
def sortChildren {α : Type} (children : List (OrderKey × α)) : List (OrderKey × α) :=
  children.mergeSort fun a b => !b.1.before a.1

def childKey (pages : List DocsPage) (child : DirNode) : OrderKey :=
  match child.index_page with
  | some index => keyFor (pageAt pages index) child.name
  | none => { ordered := false, order := 0, name := child.name }

def pageKey (pages : List DocsPage) (index : Nat) : OrderKey :=
  keyFor (pageAt pages index) (basenameOf (pageAt pages index).source)

/-- A child that is a group too deep is listed flat. -/
def placeChild (depth : Nat) (child : DocsNavItem) : List DocsNavItem :=
  if ¬ child.children.isEmpty ∧ depth + 1 ≥ kMaximumDocsNavDepth then flattenInto child else [child]

mutual

def convertNode (pages : List DocsPage) (depth : Nat) : DirNode → DocsNavItem
  | .mk name index_page own children =>
    let title := (index_page.map fun index => navTitle (pageAt pages index)).getD (docsTitleFromFilename name)
    let items := own.map (fun index => (pageKey pages index, .mk (navTitle (pageAt pages index)) (some index) []))
      ++ convertChildren pages (depth + 1) children
    .mk title index_page ((sortChildren items).flatMap fun child => placeChild depth child.2)

def convertChildren (pages : List DocsPage) (depth : Nat) : List DirNode → List (OrderKey × DocsNavItem)
  | [] => []
  | child :: rest => (childKey pages child, convertNode pages depth child) :: convertChildren pages depth rest

end

/-- A nav entry names a page or is a titled group. -/
inductive DocsNavEntry where
  | page (title page : Bytes)
  | group (title : Bytes) (pages : List DocsNavEntry)

/-- The first page with a source. -/
def bySource (pages : List DocsPage) (source : Bytes) : Option Nat :=
  pages.findIdx? fun page => page.source = source

mutual

/-- One entry as an item, and the pages it mentions; no item for what is left out. -/
def resolveEntry (pages : List DocsPage) (skipped : List Bytes) :
    DocsNavEntry → Except String (Option DocsNavItem × List Nat)
  | .page title page =>
    if page ∈ skipped then .ok (none, [])
    else
      match bySource pages page with
      | none => .error ("nav names '" ++ asMessage page ++ "', which is not a page of the site")
      | some found =>
        let title := if title.isEmpty then navTitle (pageAt pages found) else title
        .ok (some (.mk title (some found) []), [found])
  | .group title entries =>
    match resolveNav pages skipped entries with
    | .error message => .error message
    | .ok (children, mentioned) =>
      if children.isEmpty ∧ ¬ entries.isEmpty then .ok (none, mentioned)
      else .ok (some (.mk title none children), mentioned)

def resolveNav (pages : List DocsPage) (skipped : List Bytes) :
    List DocsNavEntry → Except String (List DocsNavItem × List Nat)
  | [] => .ok ([], [])
  | entry :: rest =>
    match resolveEntry pages skipped entry with
    | .error message => .error message
    | .ok (item, mentioned) =>
      match resolveNav pages skipped rest with
      | .error message => .error message
      | .ok (items, more) => .ok (item.toList ++ items, mentioned ++ more)

end

def joinPath (directory name : Bytes) : Bytes :=
  if directory.isEmpty then name else if name.isEmpty then directory else directory ++ [slash] ++ name

def treeRelative (file source : Bytes) : Bytes :=
  if source.isEmpty then file
  else if (source ++ [slash]).isPrefixOf file then file.drop (source.length + 1)
  else file

/-- The default language's site: its page tree, its home page's source and its nav. -/
structure Original where
  source : Bytes
  home : Bytes
  nav : List DocsNavEntry

/-- The first page with a source or an alias. -/
def byAlias (pages : List DocsPage) (source : Bytes) : Option Nat :=
  pages.findIdx? fun page => page.source = source ∨ ¬ page.alias_path.isEmpty ∧ page.alias_path = source

mutual

def translateEntry (site : Pages) (source : Bytes) (original : Original) : DocsNavEntry → DocsNavEntry
  | .page title page =>
    let translation := joinPath source (treeRelative page original.source)
    if page = original.home then .page title (pageAt site.pages site.home).source
    else
      match byAlias site.pages translation with
      | some found => .page title (pageAt site.pages found).source
      | none => .page title (if (byAlias site.pages page).isNone then translation else page)
  | .group title entries => .group title (translateNav site source original entries)

def translateNav (site : Pages) (source : Bytes) (original : Original) : List DocsNavEntry → List DocsNavEntry
  | [] => []
  | entry :: rest => translateEntry site source original entry :: translateNav site source original rest

end

/-- What a site's navigation is made from: the page tree, the nav of its
configuration, the title of the home tab and the translated titles. -/
structure NavConfig where
  source : Bytes := []
  nav : List DocsNavEntry := []
  original : Option Original := none
  home_title : Bytes := []
  nav_titles : List (Bytes × Bytes) := []

/-- The site's own nav, or the default language's with the pages swapped. -/
def NavConfig.effectiveNav (config : NavConfig) (site : Pages) : List DocsNavEntry :=
  match config.original with
  | some original =>
    if config.nav.isEmpty then translateNav site config.source original original.nav else config.nav
  | none => config.nav

structure DocsNavigation where
  nav : List DocsNavItem
  reading_order : List Nat
  unlisted : List Nat

/-- The reading order of the tabs, and the pages that are not listed. -/
def navigation (pages : List DocsPage) (tabs : List DocsNavItem) (listed : Nat → Bool)
    (nav_titles : List (Bytes × Bytes)) : DocsNavigation :=
  let nav := translateTitles nav_titles tabs
  { nav
    reading_order := collectAll nav
    unlisted := (List.range pages.length).filter fun index => !listed index }

def topItems (pages : List DocsPage) (tree : DirNode) : List DocsNavItem := (convertNode pages 0 tree).children

/-- The navigation part of loadTree. -/
def loadNavigation (site : Pages) (config : NavConfig) : Except String DocsNavigation :=
  let nav := config.effectiveNav site
  if nav.isEmpty then
    let tabs := .mk config.home_title (some site.home) [] :: topItems site.pages (derivedTree site)
    let listed := fun index => index == site.home || (pageAt site.pages index).listed
    .ok (navigation site.pages tabs listed config.nav_titles)
  else
    match resolveNav site.pages site.skipped nav with
    | .error message => .error message
    | .ok (tabs, mentioned) => .ok (navigation site.pages tabs mentioned.contains config.nav_titles)

end CkGit.DocsNav
