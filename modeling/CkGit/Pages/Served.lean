import CkGit.Pages.Copying
import CkGit.Pages.Serving
import CkGit.Responses.Fields

/-!
Which pages of a published site can be fetched. A file is answered with its bytes
when no byte of its path needs percent-encoding: the request parser is shared with
the dashboard, and refuses a percent sign in whatever is no route of the dashboard.
Nothing but a regular file of the current version is ever returned.
-/
namespace CkGit.Pages
open CkGit.Base CkGit.Ci
open CkGit.Web (backslash percent splitFirst splitFirst_append pathOf isQueryOrFragment HttpMethod HttpRequest
  parseReadOnlyHttpRequest parse_requestText requestText isLineText isLineText_append readHeaders readRequestLine isSafeTarget
  isRouteByte unreserved encodeByte encodePathSegment encode_bytes parseHttpRoute kMaximumRouteBytes
  kMaximumRequestBytes kMaximumRequestLineBytes blank)

/-- The URL of a file of the site of a project. -/
def siteUrl (project : Bytes) (components : Path) : Bytes :=
  encodePathSegment (slash :: project ++ slash :: [slash].intercalate components)

/-- What decoding gives back: no control of ASCII. -/
def decodable (byte : UInt8) : Bool := !(byte < 0x20 || byte == 0x7f)

/-- One byte of a URL, encoded and decoded. -/
theorem encodeByte_table (n : Fin 256) :
    (unreserved (UInt8.ofFin n) = true → UInt8.ofFin n ≠ percent)
    ∧ (hexNibble (Web.hexLetter (UInt8.ofFin n >>> 4)) = some (UInt8.ofFin n >>> 4)
      ∧ hexNibble (Web.hexLetter (UInt8.ofFin n &&& 15)) = some (UInt8.ofFin n &&& 15)
      ∧ ((UInt8.ofFin n >>> 4) <<< 4) ||| (UInt8.ofFin n &&& 15) = UInt8.ofFin n)
    ∧ (isNameCharacter (UInt8.ofFin n) = true → decodable (UInt8.ofFin n) = true ∧ UInt8.ofFin n ≠ slash)
    ∧ (isRouteByte (UInt8.ofFin n) = true →
      isQueryOrFragment (UInt8.ofFin n) = false ∧ UInt8.ofFin n ≠ blank
        ∧ ((0x20 ≤ UInt8.ofFin n || UInt8.ofFin n == tab) && UInt8.ofFin n != 0x7f) = true) := by
  revert n
  decide +kernel

theorem decodeRequestPath_encode {value : Bytes} (plain : value.all decodable = true) :
    decodeRequestPath (encodePathSegment value) = some value := by
  induction value with
  | nil => rfl
  | cons byte rest ih =>
    rw [List.all_cons, Bool.and_eq_true] at plain
    have later := ih plain.2
    rw [Web.encodePathSegment_cons]
    by_cases bare : unreserved byte = true
    · have other : byte ≠ percent := (encodeByte_table byte.toFin).1 bare
      rw [encodeByte, if_pos bare, List.singleton_append, decodeRequestPath.eq_def]
      simp only [if_neg other, later]
      rfl
    · obtain ⟨high, low, whole⟩ := (encodeByte_table byte.toFin).2.1
      have high : hexNibble (Web.hexLetter (byte >>> 4)) = some (byte >>> 4) := high
      have low : hexNibble (Web.hexLetter (byte &&& 15)) = some (byte &&& 15) := low
      have whole : ((byte >>> 4) <<< 4) ||| (byte &&& 15) = byte := whole
      have printed : ¬ (byte < 0x20 ∨ byte = 0x7f) := by
        have first := plain.1
        simpa [decodable] using first
      rw [encodeByte, if_neg bare]
      show decodeRequestPath (percent :: Web.hexLetter (byte >>> 4) :: Web.hexLetter (byte &&& 15)
        :: encodePathSegment rest) = _
      rw [decodeRequestPath]
      simp only [if_pos, high, low, whole, later, if_neg printed, Option.bind_eq_bind, Option.bind_some]
      rfl

theorem safeComponent_plain {component : Bytes} (safe : safeComponent component = true) :
    component ≠ [] ∧ slash ∉ component ∧ component.all decodable = true ∧ isTreePart component = true := by
  simp only [safeComponent, Bool.and_eq_true] at safe
  obtain ⟨⟨⟨filled, dot⟩, dots⟩, bytes⟩ := safe
  have each : ∀ byte ∈ component, byte ≠ slash ∧ byte ≠ backslash ∧ decodable byte = true ∧ byte ≠ 0 := by
    intro byte member
    have good := List.all_eq_true.mp bytes byte member
    simp only [Bool.not_eq_true', Bool.or_eq_false_iff, decide_eq_false_iff_not, beq_eq_false_iff_ne] at good
    obtain ⟨⟨⟨control, del⟩, own⟩, back⟩ := good
    refine ⟨own, back, ?_, ?_⟩
    · simp [decodable, control, del]
    · rintro rfl
      exact control (by decide)
  refine ⟨by simpa using filled, fun member => (each slash member).1 rfl,
    List.all_eq_true.mpr fun byte member => (each byte member).2.2.1, ?_⟩
  simp only [isTreePart, Bool.and_eq_true]
  refine ⟨⟨⟨filled, dot⟩, dots⟩, List.all_eq_true.mpr fun byte member => ?_⟩
  obtain ⟨own, back, _, zero⟩ := each byte member
  simp [own, back, zero]

theorem pathComponents_joined {components : Path} (filled : components ≠ [])
    (safe : ∀ component ∈ components, safeComponent component = true) :
    ([slash].intercalate components).splitOn slash = components
      ∧ pathComponents ([slash].intercalate components) = components := by
  have split : ([slash].intercalate components).splitOn slash = components :=
    List.splitOn_intercalate slash (fun component member => (safeComponent_plain (safe component member)).2.1) filled
  have kept : components.filter (!·.isEmpty) = components := by
    refine List.filter_eq_self.mpr fun component member => ?_
    simpa using (safeComponent_plain (safe component member)).1
  refine ⟨split, ?_⟩
  unfold pathComponents
  simp only [split, kept]
  rw [if_neg]
  rintro (empty | ended)
  · exact filled empty
  · -- A path that ends in a slash has an empty last component.
    obtain ⟨front, joined⟩ := List.getLast?_eq_some_iff.mp ended
    rw [joined, List.splitOn_append_cons_self, List.splitOn_nil] at split
    have last : [] ∈ components := by
      rw [← split]
      exact List.mem_append_right _ List.mem_cons_self
    exact (safeComponent_plain (safe [] last)).1 rfl

theorem intercalate_all {p : UInt8 → Bool} {separator : UInt8} (good : p separator = true) {items : List Bytes}
    (each : ∀ item ∈ items, item.all p = true) : ([separator].intercalate items).all p = true := by
  induction items with
  | nil => rfl
  | cons item rest ih =>
    have first := each item List.mem_cons_self
    have others := ih fun other member => each other (List.mem_cons_of_mem _ member)
    cases rest with
    | nil => simpa using first
    | cons next more =>
      rw [List.intercalate_cons_cons, List.all_append, List.all_append, first, others, List.all_cons, good]
      rfl

theorem openDirectories_all {site : Site} {directory : Path} {parts : List Bytes}
    (all : ∀ front, front <+: parts → front ≠ [] → site.node (directory ++ front) = some .directory) :
    openDirectories site directory parts = some (directory ++ parts) := by
  induction parts generalizing directory with
  | nil => simp [openDirectories]
  | cons part rest ih =>
    have here := all [part] (List.prefix_append [part] rest) (List.cons_ne_nil _ _)
    rw [openDirectories, if_pos here, ih]
    · simp
    · intro front member filled
      have whole := all (part :: front) (List.cons_prefix_cons.mpr ⟨rfl, member⟩) (List.cons_ne_nil _ _)
      simpa using whole

theorem readTreeFile_regular {site : Site} {parts : Path} {content : Bytes} {limit : Nat} (filled : parts ≠ [])
    (good : ∀ part ∈ parts, isTreePart part = true) (there : site.node parts = some (.regular content))
    (small : content.length ≤ limit) : readTreeFile site parts limit = some content := by
  have whole : parts.dropLast ++ parts.getLast?.toList = parts := by
    rw [List.getLast?_eq_some_getLast filled]
    exact List.dropLast_append_getLast filled
  have directories : openDirectories site [] parts.dropLast = some parts.dropLast := by
    have opened := @openDirectories_all site [] parts.dropLast
    refine opened fun front member nonempty => ?_
    have short : front ≠ parts := by
      rintro rfl
      have length := member.length_le
      rw [List.length_dropLast] at length
      have positive := List.length_pos_iff.mpr filled
      omega
    exact site.placed parts _ (Assoc.mem_of_get there) front (member.trans (List.dropLast_prefix _)) nonempty short
  unfold readTreeFile
  rw [if_neg, directories]
  · simp only [whole, there, if_neg (Nat.not_lt.mpr small)]
  · simp only [not_or, not_not, List.all_eq_true]
    exact ⟨filled, good⟩

/-- What the walk returns is a regular file below the version it starts in. -/
theorem readTreeFile_some {site : Site} {parts : Path} {content : Bytes} {limit : Nat}
    (h : readTreeFile site parts limit = some content) : site.node parts = some (.regular content) := by
  have opened : ∀ (parts : List Bytes) (directory found : Path),
      openDirectories site directory parts = some found → found = directory ++ parts := by
    intro parts
    induction parts with
    | nil =>
      intro directory found same
      cases same
      simp
    | cons part rest ih =>
      intro directory found same
      rw [openDirectories] at same
      split at same
      · rw [ih _ _ same]
        simp
      · cases same
  unfold readTreeFile at h
  split at h
  · cases h
  · rename_i good
    have filled : parts ≠ [] := fun empty => good (.inl empty)
    split at h
    · cases h
    · rename_i directory found
      split at h
      · rename_i held there
        split at h
        · cases h
        · cases h
          rw [opened _ _ _ found, List.nil_append, List.getLast?_eq_some_getLast filled] at there
          rwa [Option.toList_some, List.dropLast_append_getLast filled] at there
      · cases h

/-- The header lines and the query of a GET the parser has no quarrel with. -/
structure GetText (query : Bytes) (headers : List Bytes) : Prop where
  query_text : query.all (fun byte => 0x21 ≤ byte && byte != 0x7f) = true
  query_mark : query = [] ∨ query.head?.any isQueryOrFragment = true
  lines : ∀ header ∈ headers, isLineText header = true ∧ header ≠ []
  read : ∃ fields, readHeaders headers = some fields ∧ fields.host.isSome = true

def requestLine (project : Bytes) (components : Path) (query : Bytes) : Bytes :=
  [blank].intercalate [ascii "GET", siteUrl project components ++ query, ascii "HTTP/1.1"]

/-- A regular file of the current version that the server is asked for. -/
structure PublishedFile (root : PagesRoot) (project : Bytes) (components : Path) (content : Bytes) : Prop where
  project_valid : isValidProjectName project = true
  there : ∃ site, root.current project = some site ∧ site.node components = some (.regular content)
  filled : components ≠ []
  safe : ∀ component ∈ components, safeComponent component = true
  small : content.length ≤ kMaximumServedBytes
  fits : (siteUrl project components).length ≤ kMaximumRouteBytes

/-- No byte of the URL is encoded, unless the dashboard has such a route, and the
query fits the request line. -/
def Plain (project : Bytes) (components : Path) (query : Bytes) : Prop :=
  (percent ∉ siteUrl project components ∨ (parseHttpRoute (siteUrl project components)).kind ≠ .notFound)
    ∧ (requestLine project components query).length ≤ kMaximumRequestLineBytes

theorem siteUrl_shape {project : Bytes} {components : Path} :
    (siteUrl project components).head? = some slash ∧ (siteUrl project components).all isRouteByte = true := by
  refine ⟨rfl, List.all_eq_true.mpr fun byte member => (encode_bytes byte member).1⟩

theorem isSafeTarget_url {project : Bytes} {components : Path}
    (fits : (siteUrl project components).length ≤ kMaximumRouteBytes) :
    isSafeTarget (siteUrl project components) = true ↔ percent ∉ siteUrl project components
      ∨ (parseHttpRoute (siteUrl project components)).kind ≠ .notFound := by
  obtain ⟨first, bytes⟩ := @siteUrl_shape project components
  have filled : (siteUrl project components).isEmpty = false := rfl
  simp [isSafeTarget, filled, fits, first, bytes]

theorem pathOf_url {project query : Bytes} {components : Path}
    (mark : query = [] ∨ query.head?.any isQueryOrFragment = true) :
    pathOf (siteUrl project components ++ query) = siteUrl project components := by
  have plain : ∀ byte ∈ siteUrl project components, (!isQueryOrFragment byte) = true := by
    intro byte member
    have good : isQueryOrFragment byte = false :=
      ((encodeByte_table byte.toFin).2.2.2 (encode_bytes byte member).1).1
    rw [good]
    rfl
  unfold pathOf
  rw [List.takeWhile_append_of_pos plain]
  cases query with
  | nil => simp
  | cons byte rest =>
    have stops : isQueryOrFragment byte = true := by simpa using mark
    simp [stops]

theorem readRequestLine_get {project query : Bytes} {components : Path} {headers : List Bytes}
    (get : GetText query headers) (fits : (siteUrl project components).length ≤ kMaximumRouteBytes) :
    readRequestLine (requestLine project components query) = some (.get, siteUrl project components)
      ∧ Plain project components query
    ∨ readRequestLine (requestLine project components query) = none ∧ ¬ Plain project components query := by
  have noBlank : blank ∉ siteUrl project components ++ query := by
    intro member
    rcases List.mem_append.mp member with own | asked
    · exact ((encodeByte_table blank.toFin).2.2.2 (encode_bytes blank own).1).2.1 rfl
    · exact absurd (List.all_eq_true.mp get.query_text blank asked) (by decide)
  have pieces : (requestLine project components query).splitOn blank
      = [ascii "GET", siteUrl project components ++ query, ascii "HTTP/1.1"] := by
    refine List.splitOn_intercalate blank (fun piece member => ?_) (List.cons_ne_nil _ _)
    rcases List.mem_cons.mp member with rfl | rest
    · decide
    · rcases List.mem_cons.mp rest with rfl | last
      · exact noBlank
      · rw [List.mem_singleton.mp last]
        decide
  have safe := isSafeTarget_url fits
  unfold readRequestLine
  simp only [pieces, pathOf_url get.query_mark]
  by_cases plain : Plain project components query
  · left
    refine ⟨?_, plain⟩
    rw [if_neg]
    · rfl
    · simp [Nat.not_lt.mpr plain.2, safe.mpr plain.1]
  · right
    refine ⟨if_pos ?_, plain⟩
    by_contra accepted
    simp only [not_or, not_not, Nat.not_lt, ne_eq] at accepted
    exact plain ⟨safe.mp accepted.2.2, accepted.1⟩

theorem requestLine_text {project query : Bytes} {components : Path} {headers : List Bytes}
    (get : GetText query headers) : isLineText (requestLine project components query) = true := by
  have url : isLineText (siteUrl project components) = true := List.all_eq_true.mpr fun byte member =>
    ((encodeByte_table byte.toFin).2.2.2 (encode_bytes byte member).1).2.2
  have asked : isLineText query = true := by
    refine List.all_eq_true.mpr fun byte member => ?_
    have good := List.all_eq_true.mp get.query_text byte member
    simp only [Bool.and_eq_true, decide_eq_true_eq] at good
    have above : (0x20 : UInt8) ≤ byte := UInt8.le_trans (by decide) good.1
    simp [above, good.2]
  have verb : isLineText (ascii "GET" ++ [blank]) = true := by decide
  have version : isLineText (blank :: ascii "HTTP/1.1") = true := by decide
  have shape : requestLine project components query
      = (ascii "GET" ++ [blank]) ++ (siteUrl project components ++ query) ++ blank :: ascii "HTTP/1.1" := by
    simp [requestLine, List.intercalate_cons_cons, List.intercalate_singleton]
  have body : isLineText (siteUrl project components ++ query) = true := by
    rw [isLineText_append, url, asked]
    rfl
  rw [shape, isLineText_append, isLineText_append, verb, body, version]
  rfl

/-- The file behind its own URL. -/
theorem page_of_url {root : PagesRoot} {project content : Bytes} {components : Path}
    (published : PublishedFile root project components content) :
    targetPage root (siteUrl project components)
      = some { content, content_type := pagesContentType (components.getLastD []) } := by
  obtain ⟨site, current, there⟩ := published.there
  have name := published.project_valid
  have project_bytes : ∀ byte ∈ project, decodable byte = true ∧ byte ≠ slash := by
    intro byte member
    have good := List.all_eq_true.mp (isValidProjectName_characters name) byte member
    exact (encodeByte_table byte.toFin).2.2.1 good
  have path_bytes : ([slash].intercalate components).all decodable = true := by
    have each : ∀ component ∈ components, component.all decodable = true := fun component member =>
      (safeComponent_plain (published.safe component member)).2.2.1
    exact intercalate_all rfl each
  have decoded : decodeRequestPath (pathOf (siteUrl project components))
      = some (slash :: project ++ slash :: [slash].intercalate components) := by
    have bare := @pathOf_url project [] components (.inl rfl)
    rw [List.append_nil] at bare
    rw [bare]
    apply decodeRequestPath_encode
    rw [List.all_append, List.all_cons, List.all_cons, path_bytes]
    have all : project.all decodable = true :=
      List.all_eq_true.mpr fun byte member => (project_bytes byte member).1
    rw [all]
    rfl
  have split : projectPath (slash :: project ++ slash :: [slash].intercalate components)
      = some (project, [slash].intercalate components) := by
    have first := @splitFirst_append slash project ([slash].intercalate components)
      fun member => (project_bytes slash member).2 rfl
    simp only [projectPath, List.cons_append, first, name]
    rfl
  obtain ⟨pieces, walked⟩ := pathComponents_joined published.filled published.safe
  have kept : components.filter (!·.isEmpty) = components := by
    refine List.filter_eq_self.mpr fun component member => ?_
    simpa using (safeComponent_plain (published.safe component member)).1
  have read : readTreeFile site components kMaximumServedBytes = some content :=
    readTreeFile_regular published.filled
      (fun part member => (safeComponent_plain (published.safe part member)).2.2.2) there published.small
  have safe : components.all safeComponent = true := List.all_eq_true.mpr published.safe
  simp only [targetPage, decoded, Option.bind_eq_bind, Option.bind_some, split, readCurrentPage, name, current, readSiteFile, pieces, kept,
    safe, walked, read]
  rfl

/-- The answer to the URL is the file's bytes exactly when the URL is plain. -/
theorem handle_get {root : PagesRoot} {project content query : Bytes} {components : Path} {headers : List Bytes}
    (published : PublishedFile root project components content) (get : GetText query headers)
    (room : (requestText (requestLine project components query :: headers)).length ≤ kMaximumRequestBytes) :
    handle root (requestText (requestLine project components query :: headers))
        = .page { content, content_type := pagesContentType (components.getLastD []) } false
      ↔ Plain project components query := by
  have parsed := parse_requestText (requestLine_text get) get.lines room
  rcases readRequestLine_get get published.fits with ⟨read, plain⟩ | ⟨refused, crooked⟩
  · obtain ⟨fields, taken, host⟩ := get.read
    obtain ⟨name, named⟩ := Option.isSome_iff_exists.mp host
    rw [read] at parsed
    simp only [Option.bind_eq_bind, Option.bind_some, taken, named] at parsed
    refine iff_of_true ?_ plain
    unfold handle
    rw [parsed]
    simp only [pure, page_of_url published]
    rfl
  · rw [refused] at parsed
    simp only [Option.bind_eq_bind, Option.bind_none] at parsed
    refine iff_of_false ?_ crooked
    simp [handle, parsed]

/-- What is returned are the bytes of a regular file in the current version of the
project that the decoded path names. -/
def Confined (root : PagesRoot) (raw : Bytes) : Prop :=
  ∀ file head_only, handle root raw = .page file head_only →
    ∃ request decoded project path site, parseReadOnlyHttpRequest raw = some request
      ∧ decodeRequestPath (pathOf request.target) = some decoded ∧ projectPath decoded = some (project, path)
      ∧ root.current project = some site ∧ site.node (pathComponents path) = some (.regular file.content)

theorem confined (root : PagesRoot) (raw : Bytes) : Confined root raw := by
  intro file head_only answered
  unfold handle at answered
  split at answered
  · cases answered
  · rename_i request parsed
    simp only at answered
    split at answered
    · cases answered
    · rename_i page
      cases answered
      obtain ⟨decoded, read, rest⟩ := Option.bind_eq_some_iff.mp page
      obtain ⟨⟨project, path⟩, named, served⟩ := Option.bind_eq_some_iff.mp rest
      have served : readCurrentPage root project path kMaximumServedBytes = some file := served
      unfold readCurrentPage at served
      by_cases valid : isValidProjectName project = true
      · rw [if_neg (not_not.mpr valid)] at served
        obtain ⟨site, current, walked⟩ := Option.bind_eq_some_iff.mp served
        unfold readSiteFile at walked
        split at walked
        · cases walked
        · obtain ⟨content, walk, rfl⟩ := Option.map_eq_some_iff.mp walked
          exact ⟨request, decoded, project, path, site, parsed, read, named, current, readTreeFile_some walk⟩
      · rw [if_pos valid] at served
        cases served

/-- Exactly which files of a published site can be fetched: those whose URL is
plain. And nothing else is ever returned. -/
theorem pages_served_iff {root : PagesRoot} {project content query : Bytes} {components : Path} {headers : List Bytes}
    (published : PublishedFile root project components content) (get : GetText query headers)
    (room : (requestText (requestLine project components query :: headers)).length ≤ kMaximumRequestBytes) :
    (handle root (requestText (requestLine project components query :: headers))
        = .page { content, content_type := pagesContentType (components.getLastD []) } false
      ↔ Plain project components query)
    ∧ ∀ raw, Confined root raw :=
  ⟨handle_get published get room, confined root⟩

def Node.served (node : Node) : SiteNode :=
  match node with
  | .directory => .directory
  | .file content => .regular content

/-- The version directory that publishPagesSite leaves of its source. -/
def Source.published (source : Source) : Site where
  nodes := source.site.map fun entry => (entry.1, entry.2.served)
  placed := by
    intro path node member parent above nonempty other
    obtain ⟨entry, inside, same⟩ := List.mem_map.mp member
    obtain ⟨rfl, rfl⟩ := Prod.mk.inj same
    obtain ⟨origin, walked, shown⟩ := List.mem_filterMap.mp inside
    obtain ⟨node, _, rfl⟩ := Option.map_eq_some_iff.mp shown
    obtain ⟨before, after, split⟩ := List.append_of_mem walked
    have below := (source.rooted before origin after split).2 parent ((List.mem_inits _ _).mpr above)
    obtain ⟨directory, earlier, rfl, kind⟩ := below other nonempty
    have listed : directory ∈ source.entries := by
      rw [split]
      exact List.mem_append_left _ earlier
    rw [Assoc.get_map]
    have there : Assoc.get directory.path source.site = some .directory :=
      get_siteOf_directory source.distinct listed kind
    rw [there]
    rfl

private theorem published_node (source : Source) (path : Path) :
    source.published.node path = (Assoc.get path source.site).map Node.served :=
  Assoc.get_map Node.served path source.site

/-- One file with this name, published as the current version of a project. -/
def oneFileSource (name : Bytes) : Source where
  entries := [⟨[name], .regular ⟨[], ascii "x"⟩⟩]
  distinct := List.nodup_singleton _
  rooted := by
    intro before entry after split
    cases before with
    | nil =>
      obtain ⟨rfl, -⟩ := List.cons.inj split
      refine ⟨List.cons_ne_nil _ _, fun parent start different nonempty => ?_⟩
      have two : parent = [] ∨ parent = [name] := by simpa using start
      exact absurd two (not_or.mpr ⟨nonempty, different⟩)
    | cons first rest => cases rest <;> cases split

def oneFileRoot (name : Bytes) : PagesRoot :=
  [(ascii "p", { pointer := some (ascii "1\n"), versions := [(ascii "1", (oneFileSource name).published)] })]

def hostHeader : Bytes := ascii "Host: h"

/-- A file whose URL is plain, and one with a blank in its name. -/
private theorem served_table :
    isValidProjectName (ascii "p") = true ∧ readCurrent (some (ascii "1\n")) = some (ascii "1")
    ∧ (readHeaders [hostHeader]).any (·.host.isSome) = true ∧ isLineText hostHeader = true
    ∧ (safeComponent (ascii "a.html") = true ∧ safeComponent (ascii "a b.html") = true)
    ∧ (siteUrl (ascii "p") [ascii "a.html"] = ascii "/p/a.html"
      ∧ siteUrl (ascii "p") [ascii "a b.html"] = ascii "/p/a%20b.html")
    ∧ (parseHttpRoute (ascii "/p/a%20b.html")).kind = .notFound := by
  decide +kernel

private theorem get_host : GetText [] [hostHeader] where
  query_text := rfl
  query_mark := .inl rfl
  lines := List.forall_mem_singleton.mpr ⟨served_table.2.2.2.1, List.cons_ne_nil _ _⟩
  read := by
    obtain ⟨fields, read, host⟩ := (Option.any_eq_true _ _).mp served_table.2.2.1
    exact ⟨fields, read, host⟩

private theorem oneFile_published {name : Bytes} (safe : safeComponent name = true)
    (fits : (siteUrl (ascii "p") [name]).length ≤ kMaximumRouteBytes) :
    PublishedFile (oneFileRoot name) (ascii "p") [name] (ascii "x") where
  project_valid := served_table.1
  there := by
    refine ⟨(oneFileSource name).published, ?_, ?_⟩
    · have project : Assoc.get (ascii "p") (oneFileRoot name) = some _ :=
        (Assoc.get_singleton _ _ _).trans (if_pos rfl)
      have version : Assoc.get (ascii "1") [(ascii "1", (oneFileSource name).published)] = some _ :=
        (Assoc.get_singleton _ _ _).trans (if_pos rfl)
      simp only [PagesRoot.current, project, Option.bind_eq_bind, Option.bind_some, served_table.2.1, version]
    · rw [published_node, Source.site]
      have one := get_siteOf_one [name] ⟨[name], .regular ⟨[], ascii "x"⟩⟩
      rw [if_pos rfl] at one
      rw [oneFileSource, one]
      rfl
  filled := List.cons_ne_nil _ _
  safe := List.forall_mem_singleton.mpr safe
  small := by decide
  fits := fits

theorem pages_served_plain : Plain (ascii "p") [ascii "a.html"] []
    ∧ handle (oneFileRoot (ascii "a.html")) (requestText [requestLine (ascii "p") [ascii "a.html"] [], hostHeader])
      = .page { content := ascii "x", content_type := pagesContentType (ascii "a.html") } false := by
  have url := served_table.2.2.2.2.2.1.1
  have published := oneFile_published served_table.2.2.2.2.1.1 (by rw [url]; decide)
  have plain : Plain (ascii "p") [ascii "a.html"] [] := by
    unfold Plain requestLine
    rw [url]
    exact ⟨.inl (by decide), by decide⟩
  have room : (requestText [requestLine (ascii "p") [ascii "a.html"] [], hostHeader]).length
      ≤ kMaximumRequestBytes := by
    rw [requestLine, url]
    decide
  exact ⟨plain, (pages_served_iff published get_host room).1.mpr plain⟩

/-- A file with a blank in its name is published and cannot be fetched. -/
theorem not_pages_served_blank : ¬ ∀ (root : PagesRoot) (project content query : Bytes) (components : Path)
    (headers : List Bytes), PublishedFile root project components content → GetText query headers →
      (requestLine project components query).length ≤ kMaximumRequestLineBytes →
      (requestText (requestLine project components query :: headers)).length ≤ kMaximumRequestBytes →
      handle root (requestText (requestLine project components query :: headers))
        = .page { content, content_type := pagesContentType (components.getLastD []) } false := by
  intro all
  have url := served_table.2.2.2.2.2.1.2
  have published := oneFile_published served_table.2.2.2.2.1.2 (by rw [url]; decide)
  have short : (requestLine (ascii "p") [ascii "a b.html"] []).length ≤ kMaximumRequestLineBytes := by
    rw [requestLine, url]
    decide
  have room : (requestText [requestLine (ascii "p") [ascii "a b.html"] [], hostHeader]).length
      ≤ kMaximumRequestBytes := by
    rw [requestLine, url]
    decide
  have plain := (handle_get published get_host room).mp (all _ _ _ _ _ _ published get_host short room)
  rcases plain.1 with bare | route
  · rw [url] at bare
    exact absurd bare (by decide)
  · rw [url] at route
    exact route served_table.2.2.2.2.2.2

end CkGit.Pages
