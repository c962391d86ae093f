import Flowchart.Draft.Problem
import Flowchart.Statement.Json

/-!
# Diagrams under construction

A draft is a diagram together with what building it has to remember: the ids in use, the names that
nodes can be referred to by, the nodes of every column, the lanes, the questions and arms whose
edges are still to be drawn, and the pairs of nodes that are linked already. Each operation below
changes the tables that belong together in one step.
-/

namespace Flowchart

/-- A question whose edges are still to be drawn: one answer leads to its branch, the other one down
the main path. -/
structure Fork where
  /-- The answer that leads to the branch. -/
  side : Side
  /-- The last node of the branch; `none` when the answer leads straight to the target. -/
  branchEnd : Option String
  /-- The target as it was written. -/
  next : Option String
  /-- The bytes of the question. -/
  span : Span

/-- Whether an arm has a condition of its own or stands for everything else. -/
inductive ArmKind where
  /-- With a condition of its own. -/
  | caseArm
  /-- For everything else. -/
  | elseArm
  deriving DecidableEq

namespace ArmKind

/-- The kind of arm that a block of this name opens. -/
def ofName? (name : String) : Option ArmKind :=
  match name with
  | "case" => some .caseArm
  | "else" => some .elseArm
  | _ => none

/-- The name of the block that opens an arm. -/
def name : ArmKind → String
  | .caseArm => "case"
  | .elseArm => "else"

/-- The kind of the icon at the head of an arm. -/
def nodeKind : ArmKind → NodeKind
  | .caseArm => .caseArm
  | .elseArm => .elseArm

/-- The kind of the edges of an arm. -/
def edgeKind : ArmKind → EdgeKind
  | .caseArm => .caseArm
  | .elseArm => .elseArm

end ArmKind

/-- An arm of a choice whose edges are still to be drawn. -/
structure Arm where
  /-- The choice it belongs to. -/
  choice : String
  /-- The node at its head. -/
  id : String
  /-- Whether it has a condition. -/
  kind : ArmKind
  /-- The last block placed directly in the arm; `none` when the arm holds none. -/
  armEnd : Option String
  /-- The target as it was written. -/
  next : Option String
  /-- The bytes of its block. -/
  span : Span

/-- The target written on a choice. -/
structure ChoiceNext where
  /-- The choice it is written on. -/
  choice : String
  /-- The target as it was written. -/
  next : String
  /-- The bytes of the choice. -/
  span : Span

/-- Which end of its column and of the diagram a node goes to. -/
inductive Placement where
  /-- Behind all others. -/
  | back
  /-- Before all others. -/
  | front
  deriving DecidableEq

/-- A diagram under construction. -/
structure Draft where
  /-- What the ids of added icons start with. -/
  anchorBase : String
  /-- The diagram as far as it is built. -/
  diagram : Diagram
  /-- What has been found to be wrong. -/
  problems : List BuildProblem := []
  /-- The names of nodes, each with the id of the node that claimed it first. -/
  aliases : Table String String := []
  /-- The ids of the nodes, each with the bytes of its block. -/
  ids : Table String Span := []
  /-- The ids of the nodes of every column, in the order in which the columns were opened. -/
  columns : Table Nat (List String)
  /-- The next column to open; every open column is smaller. -/
  nextColumn : Nat
  /-- The columns of the lanes, by their names. -/
  lanes : Table String Nat := []
  /-- The questions whose edges are to be drawn, in the order in which they were closed. -/
  forks : Table String Fork := []
  /-- The arms whose edges are to be drawn, in the order in which their choices were closed. -/
  arms : List Arm := []
  /-- The targets written on choices. -/
  choiceNexts : List ChoiceNext := []
  /-- The pairs of nodes between which no further edge is added. -/
  linked : List (String × String) := []
  /-- The node where the flow starts, once it is known. -/
  start : Option String := none

/-- The first column, which holds the main path. -/
def primaryColumn : Nat := 0

namespace Draft

/-- A draft without nodes whose first column is open. -/
def new (anchorBase : String) (title : String) (metadata : Attributes) : Draft where
  anchorBase
  diagram := { title, metadata }
  columns := [(primaryColumn, [])]
  nextColumn := primaryColumn + 1

/-- Notes a problem. -/
def report (d : Draft) (fault : BuildFault) (span : Span := .nowhere) : Draft :=
  { d with problems := d.problems ++ [⟨fault, span⟩] }

/-- Whether a node has this id. -/
def hasNode (d : Draft) (id : String) : Bool := d.ids.has id

/-- The ids of the nodes in a column. -/
def columnIds (d : Draft) (column : Nat) : List String := (d.columns.get? column).getD []

/-- Makes sure that a column is open; columns opened later are greater than it. -/
def useColumn (d : Draft) (column : Nat) : Draft :=
  { d with
    columns := if d.columns.has column then d.columns else d.columns.put column []
    nextColumn := max d.nextColumn (column + 1) }

/-- Opens a column behind all others. -/
def openColumn (d : Draft) : Nat × Draft := (d.nextColumn, d.useColumn d.nextColumn)

/-- The column of a lane. The first lane takes the primary column, a later one opens its own. -/
def laneColumn (d : Draft) (lane : String) : Nat × Draft :=
  match d.lanes.get? lane with
  | some column => (column, d)
  | none =>
    let (column, d) := if d.lanes.isEmpty then (primaryColumn, d) else d.openColumn
    (column, { d with lanes := d.lanes.put lane column })

/-- Claims a name for a node. A blank name and one that has been claimed change nothing. -/
def claim (d : Draft) (name id : String) : Draft :=
  match Text.trimmed? name with
  | none => d
  -- The first node that claims a name keeps it.
  | some name => if d.aliases.has name then d else { d with aliases := d.aliases.put name id }

/-- Claims several names for a node, one after the other. -/
def claimAll (d : Draft) (names : List String) (id : String) : Draft :=
  names.foldl (fun d name => d.claim name id) d

/-- The names that a node can be referred to by: its id, the labels of its block and its anchor. -/
def namesOf (node : Node) : List String :=
  node.id :: node.block.labels ++ (node.attributes.trimmed? "anchor").toList

/-- Takes a node in: its id, its place in its column and in the diagram, and its names. -/
def enter (d : Draft) (node : Node) (placement : Placement) : Draft :=
  let d := d.useColumn node.column
  let ids := d.columnIds node.column
  let d := match placement with
    | .back =>
      { d with
        columns := d.columns.put node.column (ids ++ [node.id])
        diagram := d.diagram.append node }
    | .front =>
      { d with
        columns := d.columns.put node.column (node.id :: ids)
        diagram := d.diagram.prepend node }
  -- A name that another node has claimed before stays with that node.
  claimAll { d with ids := d.ids.put node.id node.block.span } (namesOf node) node.id

/-- Takes a node in unless its id is in use, which is a problem; says whether it was taken in. -/
def register (d : Draft) (node : Node) (placement : Placement) : Draft × Bool :=
  match d.ids.get? node.id with
  | some first => (d.report (.duplicateNode node.id first) node.block.span, false)
  | none => (d.enter node placement, true)

/-- Draws an edge between two nodes. -/
def connect (d : Draft) (edge : Edge) (source target : String) : Draft :=
  { d with diagram := d.diagram.connect (edge.settle source target) }

/-- Notes that two nodes are linked. -/
def noteLinked (d : Draft) (source target : String) : Draft :=
  { d with linked := d.linked ++ [(source, target)] }

/-- Changes the label of a node. -/
def setLabel (d : Draft) (id label : String) : Draft :=
  { d with diagram := d.diagram.change id fun n => { n with label } }

/-- Sets an attribute of a node. -/
def setAttribute (d : Draft) (id key : String) (value : Value) : Draft :=
  { d with
    diagram := d.diagram.change id fun n => { n with attributes := n.attributes.put key value } }

end Draft

/-- The text in an icon: the attribute `text`, else the items of `lines` one below the other, else a
given one. -/
def Attributes.label (a : Attributes) (otherwise : String) : String :=
  match a.text? "text" with
  | some text => text
  | none =>
    match (a.get? "lines").bind Value.list? with
    | some (item :: items) => "\n".intercalate ((item :: items).map Value.display)
    | _ => otherwise

/-- The attributes of something added to what the author wrote. -/
def Attributes.implicit (entries : List (String × Value)) : Attributes :=
  ("implicit", .truth true) :: entries

/-- The node that a block is written as. -/
def Block.node (b : Block) (kind : NodeKind) (id : String) (column : Nat) : Node where
  id
  kind
  column
  label := b.attributes.label id
  attributes := b.attributes
  block := b

end Flowchart
