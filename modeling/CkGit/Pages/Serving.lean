import CkGit.Pages.Model
import CkGit.Web.Requests

/-!
The pages server: handle in src/pages-server/main.cpp, readCurrentPage
(src/common/pages_store.cpp), src/common/site_file.cpp and readTreeFile
(src/common/tree_file.cpp). A version directory may hold links and special files;
none is followed.
-/
namespace CkGit.Pages
open CkGit.Base CkGit.Ci
open CkGit.Web (backslash percent splitFirst pathOf HttpMethod HttpRequest parseReadOnlyHttpRequest)

def kMaximumServedBytes : Nat := 2 ^ 30

inductive SiteNode where
  | directory
  | regular (content : Bytes)
  /-- A link or a special file. -/
  | other
  deriving DecidableEq

/-- A version directory: whatever is in it is below directories. -/
structure Site where
  nodes : List (Path × SiteNode)
  placed : ∀ path node, (path, node) ∈ nodes → ∀ parent, parent <+: path → parent ≠ [] → parent ≠ path →
    Assoc.get parent nodes = some .directory

def Site.node (site : Site) (path : Path) : Option SiteNode := Assoc.get path site.nodes

/-- The directory of a project below the pages root. -/
structure ProjectPages where
  /-- The content of the file current. -/
  pointer : Option Bytes
  versions : List (Bytes × Site)

abbrev PagesRoot := List (Bytes × ProjectPages)

/-- The current version of a project. -/
def PagesRoot.current (root : PagesRoot) (project : Bytes) : Option Site := do
  let pages ← Assoc.get project root
  let version ← readCurrent pages.pointer
  Assoc.get version pages.versions

def safeComponent (component : Bytes) : Bool :=
  !component.isEmpty && component != ascii "." && component != ascii ".."
    && component.all fun byte => !(byte < 0x20 || byte == 0x7f || byte == slash || byte == backslash)

/-- The names readTreeFile opens. -/
def isTreePart (part : Bytes) : Bool :=
  !part.isEmpty && part != ascii "." && part != ascii ".."
    && part.all fun byte => !(byte == slash || byte == backslash || byte == 0)

/-- Opens one directory below the other. -/
def openDirectories (site : Site) (directory : Path) (parts : List Bytes) : Option Path :=
  match parts with
  | [] => some directory
  | part :: rest =>
    if site.node (directory ++ [part]) = some .directory then openDirectories site (directory ++ [part]) rest
    else none

def readTreeFile (site : Site) (parts : List Bytes) (limit : Nat) : Option Bytes :=
  if parts = [] ∨ ¬ parts.all isTreePart then none
  else
    match openDirectories site [] parts.dropLast with
    | none => none
    | some directory =>
      match site.node (directory ++ parts.getLast?.toList) with
      | some (.regular content) => if content.length > limit then none else some content
      | _ => none

def contentTypes : List (List String × String) :=
  [(["html", "htm"], "text/html; charset=utf-8"), (["css"], "text/css; charset=utf-8"),
    (["js", "mjs"], "text/javascript; charset=utf-8"), (["json", "map"], "application/json"),
    (["svg"], "image/svg+xml"), (["png"], "image/png"), (["jpg", "jpeg"], "image/jpeg"), (["gif"], "image/gif"),
    (["webp"], "image/webp"), (["ico"], "image/x-icon"), (["txt", "md"], "text/plain; charset=utf-8"),
    (["xml"], "application/xml"), (["pdf"], "application/pdf"), (["wasm"], "application/wasm"),
    (["woff2"], "font/woff2"), (["woff"], "font/woff"), (["ttf"], "font/ttf")]

def pagesContentType (name : Bytes) : String :=
  let ext := ((Web.splitLast (ascii ".") name).map Prod.snd).getD []
  match contentTypes.find? fun (extensions, _) => extensions.any fun extension => ascii extension == ext with
  | some (_, type) => type
  | none => "application/octet-stream"

structure PageFile where
  content : Bytes
  content_type : String
  deriving DecidableEq

/-- The components of a request path; a directory stands for its index.html. -/
def pathComponents (path : Bytes) : List Bytes :=
  let parts := (path.splitOn slash).filter (!·.isEmpty)
  if parts = [] ∨ path.getLast? = some slash then parts ++ [ascii "index.html"] else parts

def readSiteFile (site : Site) (path : Bytes) (cap : Nat) : Option PageFile :=
  if ¬ ((path.splitOn slash).filter (!·.isEmpty)).all safeComponent then none
  else
    let components := pathComponents path
    (readTreeFile site components cap).map fun content =>
      { content, content_type := pagesContentType (components.getLastD []) }

def readCurrentPage (root : PagesRoot) (project path : Bytes) (cap : Nat) : Option PageFile :=
  if ¬ isValidProjectName project then none
  else (root.current project).bind (readSiteFile · path cap)

def hexNibble (character : UInt8) : Option UInt8 :=
  if '0'.toUInt8 ≤ character ∧ character ≤ '9'.toUInt8 then some (character - '0'.toUInt8)
  else if 'a'.toUInt8 ≤ character ∧ character ≤ 'f'.toUInt8 then some (character - 'a'.toUInt8 + 10)
  else if 'A'.toUInt8 ≤ character ∧ character ≤ 'F'.toUInt8 then some (character - 'A'.toUInt8 + 10)
  else none

def decodeRequestPath (target : Bytes) : Option Bytes :=
  match target with
  | [] => some []
  | byte :: rest =>
    if byte = percent then
      match rest with
      | high :: low :: rest => do
        let high ← hexNibble high
        let low ← hexNibble low
        let byte := (high <<< 4) ||| low
        if byte < 0x20 ∨ byte = 0x7f then none
        else do
          let out ← decodeRequestPath rest
          return byte :: out
      | _ => none
    else do
      let out ← decodeRequestPath rest
      return byte :: out

inductive Response where
  | page (file : PageFile) (head_only : Bool)
  | error (status : Nat) (reason : String) (head_only : Bool)
  deriving DecidableEq

/-- The project and the path below it. -/
def projectPath (decoded : Bytes) : Option (Bytes × Bytes) :=
  match decoded with
  | [] => none
  | first :: remainder =>
    if first ≠ slash then none
    else
      let (project, rest) := splitFirst slash remainder
      if isValidProjectName project then some (project, rest.getD []) else none

/-- The page that a target names. -/
def targetPage (root : PagesRoot) (target : Bytes) : Option PageFile := do
  let decoded ← decodeRequestPath (pathOf target)
  let (project, path) ← projectPath decoded
  readCurrentPage root project path kMaximumServedBytes

def handle (root : PagesRoot) (raw : Bytes) : Response :=
  match parseReadOnlyHttpRequest raw with
  | none => .error 400 "Bad Request" false
  | some request =>
    let head_only := request.method == .head
    match targetPage root request.target with
    | none => .error 404 "Not Found" head_only
    | some file => .page file head_only

end CkGit.Pages
