import CkGit.Base.Text

/-!
The commit graph: renderGraphRows (src/common/web/history.cpp) draws one row
for each commit, with the lanes of the commits that are still to come.
-/
namespace CkGit.Graph
open CkGit.Base

structure WebCommit where
  id : Bytes
  subject : Bytes
  parents : List Bytes
deriving Repr, DecidableEq

def maximumLanes : Nat := 128

/-- What is drawn for one commit: its lane, the lanes above and below it. -/
structure Row where
  commit : WebCommit
  before : List Bytes
  lane : Nat
  hasIncoming : Bool
  lanes : List Bytes
deriving Repr, DecidableEq

/-- A parent behind the first gets a lane next to the commit unless it has one. -/
def insertParent (lane : Nat) (lanes : List Bytes) (parent : Bytes × Nat) : List Bytes :=
  if parent.1 ∈ lanes then lanes else lanes.insertIdx (min (lane + parent.2) lanes.length) parent.1

def replaceLane (lanes : List Bytes) (lane : Nat) (parents : List Bytes) : List Bytes :=
  match parents with
  | [] => lanes.eraseIdx lane
  | front :: _ => (parents.zipIdx.drop 1).foldl (insertParent lane) (lanes.set lane front)

def unique (lanes : List Bytes) : List Bytes :=
  lanes.foldl (fun unique id => if id ∈ unique then unique else unique ++ [id]) []

/-- A commit that no lane waits for gets one at the end. -/
def openLane (lanes : List Bytes) (id : Bytes) : List Bytes := if id ∈ lanes then lanes else lanes ++ [id]

/-- The row of a commit, none when the graph has too many lanes there. -/
def drawCommit (lanes : List Bytes) (commit : WebCommit) : Option Row :=
  let hasIncoming := commit.id ∈ lanes
  let before := openLane lanes commit.id
  if before.length > maximumLanes ∨ commit.parents.length > maximumLanes then none
  else
    let lane := before.findIdx (· = commit.id)
    let after := unique (replaceLane before lane commit.parents)
    if after.length > maximumLanes then none
    else some { commit, before, lane, hasIncoming := hasIncoming, lanes := after }

/-- The rows up to the first commit with too many lanes. -/
def drawRows (lanes : List Bytes) (commits : List WebCommit) : List Row :=
  match commits with
  | [] => []
  | commit :: rest =>
    match drawCommit lanes commit with
    | none => []
    | some row => row :: drawRows row.lanes rest

/-- A path of the row, in the color of the lane it starts in: from the top to
the commit's node, from the top to the bottom, from the node to the bottom. -/
inductive Edge where
  | incoming (lane : Nat)
  | passing (lane next : Nat)
  | outgoing (lane next : Nat)
deriving Repr, DecidableEq

def passingEdge (row : Row) (id : Bytes) (lane : Nat) : List Edge :=
  if lane = row.lane then if row.hasIncoming then [.incoming lane] else []
  else match row.lanes.findIdx? (· = id) with
    | some next => [.passing lane next]
    | none => []

def parentEdge (row : Row) (parent : Bytes) : List Edge :=
  match row.lanes.findIdx? (· = parent) with
  | some next => [.outgoing row.lane next]
  | none => []

def Row.edges (row : Row) : List Edge :=
  row.before.zipIdx.flatMap (fun (id, lane) => passingEdge row id lane)
    ++ row.commit.parents.flatMap (parentEdge row)

def x (lane : Nat) : Bytes := decimal (lane * 14 + 8)

def color (lane : Nat) : Bytes := ascii "lane" ++ decimal (lane % 6)

def path (lane : Nat) (points : Bytes) : Bytes :=
  ascii "<path class=\"" ++ color lane ++ ascii "\" vector-effect=\"non-scaling-stroke\" d=\"M" ++ points ++ ascii "\"/>"

def Edge.text (edge : Edge) : Bytes :=
  match edge with
  | .incoming lane => path lane (x lane ++ ascii " 0V24")
  | .passing lane next => path lane (x lane ++ ascii " 0L" ++ x next ++ ascii " 48")
  | .outgoing lane next => path lane (x lane ++ ascii " 24L" ++ x next ++ ascii " 48")

def escapeCharacter (character : UInt8) : Bytes :=
  if character = '&'.toUInt8 then ascii "&amp;"
  else if character = '<'.toUInt8 then ascii "&lt;"
  else if character = '>'.toUInt8 then ascii "&gt;"
  else if character = '"'.toUInt8 then ascii "&quot;"
  else if character = '\''.toUInt8 then ascii "&#39;"
  else if character < 0x20 ∨ character = 0x7f then ascii "&#xfffd;"
  else [character]

def htmlEscape (value : Bytes) : Bytes := value.flatMap escapeCharacter

def Row.text (row : Row) : Bytes :=
  let width := decimal (max row.before.length row.lanes.length * 14 + 4)
  let coordinates := ascii " viewBox=\"0 0 " ++ width ++ ascii " 48\""
  ascii "<svg class=\"graph graph-lines\" aria-hidden=\"true\" focusable=\"false\" width=\"" ++ width
    ++ ascii "\" height=\"100%\"" ++ coordinates ++ ascii " preserveAspectRatio=\"none\">"
    ++ row.edges.flatMap Edge.text
    ++ ascii "</svg><svg class=\"graph graph-node\" aria-label=\""
    ++ htmlEscape (ascii "Commit " ++ row.commit.id.take 8 ++ ascii ": " ++ row.commit.subject)
    ++ ascii "\" role=\"img\" focusable=\"false\" width=\"" ++ width ++ ascii "\" height=\"48\"" ++ coordinates
    ++ ascii "><circle class=\"" ++ color row.lane ++ ascii "\" cx=\"" ++ x row.lane ++ ascii "\" cy=\"24\" r=\"4\"/></svg>"

def muted : Bytes := ascii "<span class=\"muted\">Graph exceeds 128 lanes</span>"

def renderGraphRows (commits : List WebCommit) : List Bytes :=
  let rows := drawRows [] commits
  rows.map Row.text ++ List.replicate (commits.length - rows.length) muted

/-- The lanes with an edge at the top of the row: a new tip has none. -/
def Row.top (row : Row) : List Bytes := if row.hasIncoming then row.before else row.before.dropLast

/-- From the bottom of a row the drawn edges lead down to a commit's node. -/
inductive Reaches (rows : List Row) : Nat → Nat → Nat → Prop
  | node {k lane : Nat} {row : Row} (next : rows[k + 1]? = some row) (edge : .incoming lane ∈ row.edges)
      (there : lane = row.lane) : Reaches rows k lane (k + 1)
  | pass {k lane next m : Nat} {row : Row} (below : rows[k + 1]? = some row)
      (edge : .passing lane next ∈ row.edges) (rest : Reaches rows (k + 1) next m) : Reaches rows k lane m

/-- From the node of one commit the drawn edges lead to the node of another. -/
def Leads (rows : List Row) (k m : Nat) : Prop :=
  ∃ row lane, rows[k]? = some row ∧ .outgoing row.lane lane ∈ row.edges ∧ Reaches rows k lane m

end CkGit.Graph
