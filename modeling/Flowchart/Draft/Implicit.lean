import Flowchart.Draft.Parameters

/-!
# Icons the author does not write

Every diagram gets a start icon with its title and an end icon, both in the primary column, and a
parameters icon in a column of its own if the root asks for one. When an author's icon has taken the
id of one of them, that is a duplicate like any other and the diagram does without. An icon of the
kind that is already there is used instead.
-/

namespace Flowchart.Draft

/-- Claims the anchor of a node as a name. A node without an anchor gets the fallback as one. -/
def claimAnchor (d : Draft) (id : String) (fallback : Option String) : Draft :=
  match d.diagram.node? id with
  | none => d
  | some node =>
    match node.attributes.trimmed? "anchor", fallback with
    | some anchor, _ => d.claim anchor id
    | none, some anchor => (d.setAttribute id "anchor" (.text anchor)).claim anchor id
    | none, none => d

/-- The start icon, which shows the title. -/
def startNode (d : Draft) : Node :=
  let id := d.anchorBase ++ "@start"
  { id
    kind := .start
    column := primaryColumn
    label := d.diagram.title
    attributes := .implicit [("anchor", .text id), ("text", .text d.diagram.title)]
    block := .synthetic "start" "start" }

/-- Notes which icon the flow starts with. -/
def setStart (d : Draft) (id : String) : Draft := { d.claim "start" id with start := some id }

/-- Puts the title on a start icon. -/
def titleStart (d : Draft) (id : String) : Draft :=
  (d.setLabel id d.diagram.title).setAttribute id "text" (.text d.diagram.title)

/-- Puts the start icon above everything else, or uses the one that is there. -/
def addStart (d : Draft) : Draft :=
  match (d.diagram.ofKind .start).head? with
  | some node => ((d.titleStart node.id).claimAnchor node.id (some d.startNode.id)).setStart node.id
  | none =>
    let node := d.startNode
    let (d, isNew) := d.register node .front
    if isNew then d.setStart node.id else d

/-- The end icon. -/
def endNode (d : Draft) : Node :=
  let id := d.anchorBase ++ "@end"
  { id
    kind := .finish
    column := primaryColumn
    label := "End"
    attributes := .implicit [("anchor", .text id)]
    block := .synthetic "end" "end" }

/-- Claims the anchors of end icons; the first of them gets one if it has none. -/
def claimEnds (d : Draft) (first : String) (others : List String) : Draft :=
  others.foldl (fun d id => d.claimAnchor id none) (d.claimAnchor first (some d.endNode.id))

/-- Puts the end icon below the primary column, or uses those that are there. -/
def addEnd (d : Draft) : Draft :=
  match (d.diagram.ofKind .finish).map Node.id with
  | [] =>
    let node := d.endNode
    let (d, isNew) := d.register node .back
    if isNew then d.claim "end" node.id else d
  | first :: others => d.claimEnds first others

/-- The edge from the start icon to the parameters icon. -/
def parametersEdge (start parameters : String) : Edge where
  source := start
  target := parameters
  kind := .main
  attributes := .implicit [("role", .text "parameters")]

/-- Puts the icon of a value, if there is one, into a new column; gives the edge to it. -/
def enterParameters (d : Draft) (value : Value) (start : String) : Draft × Option Edge :=
  let (column, d) := d.openColumn
  match Parameters.node? value d.anchorBase column with
  | none => (d, none)
  | some node =>
    let (d, isNew) := d.register node .back
    if isNew then
      (d.claim "parameters" node.id, some ((parametersEdge start node.id).settle start node.id))
    else (d, none)

/-- Puts the parameters icon into a column of its own and gives the edge that links the start icon
to it. Without a start icon, or for a value that could not be read, there is neither. -/
def addParameters (d : Draft) (value : Value) : Draft × Option Edge :=
  match value, d.start with
  | .null, _ => (d, none)
  | _, none => (d, none)
  | value, some start => d.enterParameters value start

end Flowchart.Draft
