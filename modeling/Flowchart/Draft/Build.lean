import Flowchart.Draft.Decorations
import Flowchart.Draft.Flow
import Flowchart.Draft.Icons
import Flowchart.Draft.Implicit

/-!
# Building a diagram

The first block `drakon` of a document is the root of the diagram. Its attributes are the title, the
parameters and free metadata. Its blocks are icons of the main path, lanes of icons, and the lines,
attachments and notes, which wait until all icons are placed. Every problem is noted, and building
goes on with what remains.
-/

namespace Flowchart

/-- A text with an underscore for every run of blanks. -/
def underscored (inBlank : Bool) : List Char → List Char
  | [] => []
  | c :: cs =>
    if Text.isBlank c then
      if inBlank then underscored true cs else '_' :: underscored true cs
    else c :: underscored false cs

namespace Draft

/-- Places a block of a lane in the lane's column; blocks that belong to the root are refused. -/
def placeInLane (lane : String) (column : Nat) (d : Draft) (o : Outline) : Draft :=
  if isRootOnly o.block.name then d.report (.unsupportedInLane o.block.name lane) o.block.span
  else (placeIcon o column d).1

/-- Places the blocks of a lane. A lane without a label is known by the number of lanes so far. -/
def placeLane (d : Draft) (lane : Outline) : Draft :=
  let name := lane.block.label?.getD ("lane_" ++ toString (d.lanes.length + 1))
  let (column, d) := d.laneColumn name
  lane.children.foldl (placeInLane name column) d

/-- Places a block of the root, unless it has to wait for the icons. -/
def placeRootBlock (d : Draft) (o : Outline) : Draft :=
  if o.block.name = "lane" then d.placeLane o
  else if isRootOnly o.block.name then d
  else (placeIcon o primaryColumn d).1

/-- The title of a diagram: the attribute, else the label of the root. -/
def titleOf (root : Block) : String :=
  (((root.attributes.trimmed? "title").or (root.label?.bind Text.trimmed?))).getD "Diagram"

/-- The draft with which building a root block starts. -/
def initial (root : Block) : Draft :=
  Draft.new (String.ofList (underscored false (root.label?.getD "diagram").toList)) (titleOf root)
    (root.attributes.remove "parameters")

/-- Adds the parameters icon if the root asks for one; gives the edge to it. -/
def placeParameters (d : Draft) (root : Block) : Draft × Option Edge :=
  match root.attributes.get? "parameters" with
  | some value => d.addParameters value
  | none => (d, none)

/-- A draft with all icons of a root block, and the edge to its parameters. -/
def placeRoot (root : Block) : Draft × Option Edge :=
  let d := (root.outline.children.foldl placeRootBlock (initial root)).addStart
  -- The start icon has to be there for the edge to the parameters.
  let (d, edge) := d.placeParameters root
  (d.addEnd, edge)

/-- Draws the edge to the parameters, if there is one. -/
def linkParameters (d : Draft) (edge : Option Edge) : Draft :=
  match edge with
  | some edge => d.link edge edge.leaves edge.enters
  | none => d

/-- Adds the attachments, the notes, and all edges. -/
def connectRoot (d : Draft) (root : Block) (parametersEdge : Option Edge) : Draft :=
  let d := (root.blocksCalled "attach").foldl attach d
  let d := (root.blocksCalled "note").foldl addNote d
  -- Lines go before the edges that nobody writes, which are left out where a line is drawn.
  let d := d.linkParameters parametersEdge
  let d := (root.blocksCalled "line").foldl drawLine d
  let (d, targets) := d.resolveTargets
  let d := d.linkColumns
  let default := d.defaultTarget
  let d := d.linkForks targets default
  let d := d.linkArms targets default
  d.settleEdges

/-- The draft that a root block describes. -/
def ofRoot (root : Block) : Draft :=
  let (d, parametersEdge) := placeRoot root
  d.connectRoot root parametersEdge

end Draft

/-- The root of the diagram in a document: its first block `drakon`. -/
def rootBlock? (document : List Statement) : Option Block :=
  (document.filterMap Statement.block?).find? (·.name = "drakon")

/-- The diagram that a document describes, if there is a root, and every problem found. -/
def Diagram.build (document : List Statement) : Option Diagram × List BuildProblem :=
  match rootBlock? document with
  | none => (none, [⟨.missingRoot, .nowhere⟩])
  | some root =>
    let d := Draft.ofRoot root
    (some d.diagram, d.problems)

end Flowchart
