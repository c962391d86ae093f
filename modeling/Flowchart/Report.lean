import Flowchart.Layout
import Flowchart.Report.Toml

/-!
# The report of a layout

A report lists the canvas, the columns, every node with its place and its lines, and every edge.
When there is nothing to draw it says so in a message.
-/

namespace Flowchart.Report

/-- What is shown when the source has errors and no diagram could be drawn. -/
def brokenMessage : String := "Fix syntax errors in the HCL diagram to see a preview."

/-- What is shown when the diagram has no nodes. -/
def emptyMessage : String := "Define blocks using the HCL-based DRAKON DSL."

/-- A length. -/
def length (x : Float32) : String := Decimal.pointedOfFloat32 x

/-- A column of the canvas. -/
def column (c : Column Float32) : String :=
  Toml.table "[[columns]]"
    [Toml.line "index" (toString c.index), Toml.line "x" (length c.x),
      Toml.line "width" (length c.width)]

/-- A node. One that the layout does not know stands at the origin. -/
def node (layout : Layout Float32) (n : Node) : String :=
  let place := (layout.arrangement.positions.get? n.id).getD ⟨0, 0⟩
  let (lines, width, height) := match n.frame with
    | some f => (f.lines, f.width, f.height)
    | none => ([], 0, 0)
  Toml.table "[[nodes]]"
    [Toml.line "id" (Toml.string n.id), Toml.line "type" (Toml.string n.kind.name),
      Toml.line "column" (toString n.column),
      Toml.line "depth" (toString (Layout.depthOf layout.depths n.id)),
      Toml.line "label" (Toml.string n.label), Toml.line "lines" (Toml.strings lines),
      Toml.line "x" (length place.x), Toml.line "y" (length place.y),
      Toml.line "width" (length width), Toml.line "height" (length height)]

/-- A line for a text that may be absent. -/
def optionalLine (key : String) (text : Option String) : List String :=
  (text.map fun text => Toml.line key (Toml.string text)).toList

/-- An edge. -/
def edge (e : Edge) : String :=
  Toml.table "[[edges]]"
    ([Toml.line "from" (Toml.string e.source), Toml.line "to" (Toml.string e.target)] ++
      optionalLine "from_base" e.sourceNode ++ optionalLine "to_base" e.targetNode ++
      [Toml.line "kind" (Toml.string e.kind.name)] ++
      optionalLine "label" (if e.label.isEmpty then none else some e.label) ++
      [Toml.line "implicit" (Toml.bool e.isImplicit)])

/-- A report of its parts. A list without members is named before the first table. -/
def document (title : String) (message : Option String) (width height : Float32)
    (columns nodes edges : List String) : String :=
  let absent (key : String) (members : List String) : String :=
    if members.isEmpty then Toml.line key "[]" else ""
  Toml.line "title" (Toml.string title) ++ String.join (optionalLine "message" message) ++
    absent "columns" columns ++ absent "nodes" nodes ++ absent "edges" edges ++
    Toml.table "[canvas]" [Toml.line "width" (length width), Toml.line "height" (length height)] ++
    String.join columns ++ String.join nodes ++ String.join edges

/-- The report of a diagram with its layout. -/
def ofLayout (d : Diagram) (layout : Layout Float32) : String :=
  document d.title (if d.isEmpty then some emptyMessage else none) layout.arrangement.size.width
    layout.arrangement.size.height (layout.arrangement.columns.map column)
    (d.nodes.map (node layout)) (d.edges.map edge)

/-- The report that has nothing but a message. -/
def placeholder (message : String) : String := document "" (some message) 0 0 [] [] []

end Flowchart.Report
