import CkGit.Base.Nearest
import CkGit.Web.Router

/-!
The outline of a documentation page: renderOutline (src/common/docs_site.cpp)
writes the page's headings as nested lists.
-/
namespace CkGit.Outline
open CkGit.Base CkGit.Web

structure MarkdownHeading where
  level : Int
  text : Bytes
  id : Bytes
deriving Repr, DecidableEq

def escapeByte (byte : UInt8) : Bytes :=
  if byte = '&'.toUInt8 then ascii "&amp;"
  else if byte = '<'.toUInt8 then ascii "&lt;"
  else if byte = '>'.toUInt8 then ascii "&gt;"
  else if byte = '"'.toUInt8 then ascii "&quot;"
  else if byte = '\''.toUInt8 then ascii "&#39;"
  else [byte]

def escapeHtml (value : Bytes) : Bytes := value.flatMap escapeByte

/-- What renderOutline keeps between two headings; the last opened list stands first. -/
structure Lists where
  out : Bytes
  levels : List Int
  itemOpen : Bool
deriving Repr, DecidableEq

/-- Closes the lists below the outermost one that are deeper than the level. -/
def closeLists (level : Int) (out : Bytes) (levels : List Int) : Bytes × List Int :=
  match levels with
  | back :: next :: rest =>
    if level < back then closeLists level (out ++ ascii "</ul></li>") (next :: rest)
    else (out, levels)
  | _ => (out, levels)

/-- Opens a list for the level, or goes back to one that is open. -/
def placeLevel (lists : Lists) (level : Int) : Lists :=
  match lists.levels with
  | [] => { lists with out := lists.out ++ ascii "<ul>", levels := [level] }
  | back :: rest =>
    if level > back then
      { out := lists.out ++ ascii "<ul>", levels := level :: back :: rest, itemOpen := false }
    else
      let out := if lists.itemOpen then lists.out ++ ascii "</li>" else lists.out
      let (out, levels) := closeLists level out (back :: rest)
      { lists with out, levels }

/-- What stands between the brackets of a heading's link. -/
def linkTag (heading : MarkdownHeading) : Bytes :=
  ascii "a href=\"#" ++ escapeHtml (encodePathSegment heading.id) ++ ascii "\""

def writeHeading (lists : Lists) (heading : MarkdownHeading) : Lists :=
  let lists := placeLevel lists heading.level
  { lists with
    out := lists.out ++ ascii "<li><" ++ linkTag heading ++ ascii ">" ++ escapeHtml heading.text ++ ascii "</a>"
    itemOpen := true }

def selected (outline : List MarkdownHeading) (minLevel maxLevel : Int) : List MarkdownHeading :=
  outline.filter fun heading => !(heading.level < minLevel || heading.level > maxLevel)

def renderOutline (outline : List MarkdownHeading) (minLevel maxLevel : Int) : Bytes :=
  let lists := (selected outline minLevel maxLevel).foldl writeHeading { out := [], levels := [], itemOpen := false }
  if lists.levels = [] then lists.out
  else lists.out ++ ascii "</li>" ++ (lists.levels.drop 1).flatMap (fun _ => ascii "</ul></li>") ++ ascii "</ul>"

/-- An element that is open: a list, or an entry with its number and its link if that is open. -/
inductive Opened where
  | list
  | item (number : Nat)
  | link (tag : Bytes)
deriving Repr, DecidableEq

/-- An entry of the lists, and the number of the entry whose list holds it. -/
structure Entry where
  tag : Bytes
  text : Bytes
  parent : Option Nat
deriving Repr, DecidableEq

/-- The entry around the innermost open one. -/
def around (opened : List Opened) : Option Nat :=
  match opened with
  | .item _ :: .list :: .item parent :: _ => some parent
  | _ => none

structure Reader where
  text : Bytes
  tag : Option Bytes
  opened : List Opened
  entries : List Entry
deriving Repr, DecidableEq

/-- A list stands alone or behind the link of an entry; an entry stands in a
list and starts with its one link; only a link holds text. -/
def readTag (text tag : Bytes) (opened : List Opened) (entries : List Entry) :
    Option (List Opened × List Entry) :=
  if tag = ascii "/a" then
    match opened with
    | .link start :: rest => some (rest, entries ++ [⟨start, text, around rest⟩])
    | _ => none
  else if text ≠ [] then none
  else if tag = ascii "ul" then
    match opened with
    | [] => if entries = [] then some ([.list], entries) else none
    | .item number :: rest =>
      if number < entries.length then some (.list :: .item number :: rest, entries) else none
    | _ => none
  else if tag = ascii "/ul" then
    match opened with
    | .list :: rest => some (rest, entries)
    | _ => none
  else if tag = ascii "li" then
    match opened with
    | .list :: rest => some (.item entries.length :: .list :: rest, entries)
    | _ => none
  else if tag = ascii "/li" then
    match opened with
    | .item number :: rest => if number < entries.length then some (rest, entries) else none
    | _ => none
  else
    match opened with
    | .item number :: rest =>
      if number = entries.length then some (.link tag :: .item number :: rest, entries) else none
    | _ => none

def readByte (reader : Reader) (byte : UInt8) : Option Reader :=
  match reader.tag with
  | none =>
    if byte = '<'.toUInt8 then some { reader with tag := some [] }
    else some { reader with text := reader.text ++ [byte] }
  | some tag =>
    if byte = '>'.toUInt8 then
      (readTag reader.text tag reader.opened reader.entries).map fun (opened, entries) =>
        { text := [], tag := none, opened, entries }
    else some { reader with tag := some (tag ++ [byte]) }

/-- The entries of nested lists in their order, none when the lists are not
properly nested. -/
def readLists (markup : Bytes) : Option (List Entry) := do
  let reader ← markup.foldlM readByte { text := [], tag := none, opened := [], entries := [] }
  if reader.text = [] ∧ reader.tag = none ∧ reader.opened = [] then pure reader.entries else none

/-- The entries as the page's headings ask for them. -/
def outlineEntries (headings : List MarkdownHeading) (parents : List (Option Nat)) : List Entry :=
  headings.zipWith (fun heading parent => ⟨linkTag heading, escapeHtml heading.text, parent⟩) parents

/-- Headings below one heading have one level, and those below a heading that
is below none are deeper than the first. -/
structure Even (levels : List Int) : Prop where
  siblings : ∀ {first second parent : Nat}, (nearests levels)[first]? = some (some parent) →
    (nearests levels)[second]? = some (some parent) → levels[first]? = levels[second]?
  deeper : ∀ {child parent : Nat} {level start : Int}, (nearests levels)[child]? = some (some parent) →
    (nearests levels)[parent]? = some none → levels[child]? = some level → levels[0]? = some start → start < level

end CkGit.Outline
