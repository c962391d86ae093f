import Flowchart.Layout.Arrangement
import Flowchart.Layout.Depth
import Flowchart.Layout.Shape
import Flowchart.Layout.Wrap

/-!
# Laying out a diagram

First every node gets a frame: its label is wrapped to the width that its shape leaves for text, and
the height follows from the number of lines. Then nodes are arranged by column and depth. The row of
a node is its depth, except that parameters stand beside the start.
-/

namespace Flowchart

/-- The frame of a label in a shape. -/
def Shape.frame (s : Shape) (measure : Measure) (label : String) : Frame :=
  let lines := wrap measure s.textWidth label
  { width := s.width
    height := s.heightFor lines.length
    lines
    lineHeight := s.lineHeight
    padding := s.padding }

/-- Gives every node its frame. -/
def Diagram.framed (d : Diagram) (measure : Measure) : Diagram :=
  { d with
    nodes := d.nodes.map fun n =>
      { n with frame := some ((Shape.ofName n.kind.name).frame measure n.label) } }

/-- A diagram on its canvas. -/
structure Layout (α : Type) where
  /-- Where the nodes stand. -/
  arrangement : Arrangement α
  /-- The depth of every node. -/
  depths : Table String Nat

namespace Layout

/-- The depth of a node; a node that is not known has depth zero. -/
def depthOf (depths : Table String Nat) (id : String) : Nat := (depths.get? id).getD 0

/-- The row of a node. -/
def rowOf (depths : Table String Nat) (start : Option Node) (n : Node) : Nat :=
  match n.kind, start with
  | .parameters, some start => depthOf depths start.id
  | _, _ => depthOf depths n.id

/-- The size of a framed node. -/
def frameSize (n : Node) : Option (Size Float32) := n.frame.map fun f => ⟨f.width, f.height⟩

/-- The boxes of nodes; fails at the first node without a size. -/
def boxes {α : Type} (sizeOf : Node → Option (Size α)) (d : Diagram) :
    Except Node (List (Box α)) :=
  let depths := d.depths
  let start := d.nodes.find? (·.kind = .start)
  d.nodes.mapM fun n =>
    match sizeOf n with
    | none => .error n
    | some size =>
      .ok { id := n.id, column := n.column, depth := depthOf depths n.id,
            row := rowOf depths start n, size }

/-- Lays out a diagram whose nodes have sizes; fails at the first node without one. -/
def ofDiagram {α : Type} [Scalar α] (s : Spacing α) (sizeOf : Node → Option (Size α))
    (d : Diagram) : Except Node (Layout α) := do
  let boxes ← boxes sizeOf d
  pure { arrangement := Arrangement.ofBoxes s boxes, depths := d.depths }

end Layout

end Flowchart
