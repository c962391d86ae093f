import Flowchart.Diagram.Edge
import Flowchart.Diagram.Node

/-!
# Diagrams

A diagram holds its nodes in the order in which they were placed, its edges in the order in which
they were drawn, and the attachments and notes that decorate it.
-/

namespace Flowchart

/-- A decoration on a node. -/
structure Attachment where
  /-- The kind of decoration. -/
  kind : String
  /-- The name of the decoration. -/
  id : String
  /-- The node that is decorated. -/
  target : String
  /-- What else is written on it. -/
  attributes : Attributes

/-- A text beside the flow, perhaps pinned to a node. -/
structure Note where
  /-- What the note says. -/
  text : String
  /-- Where it stands. -/
  placement : String
  /-- The node it is pinned to. -/
  attachesTo : Option String

/-- A diagram. -/
structure Diagram where
  /-- The label of the root. -/
  title : String := ""
  /-- The attributes of the root. -/
  metadata : Attributes := []
  /-- The icons, in the order in which they were placed. -/
  nodes : List Node := []
  /-- The connections, in the order in which they were drawn. -/
  edges : List Edge := []
  /-- The decorations of nodes. -/
  attachments : List Attachment := []
  /-- The texts beside the flow. -/
  notes : List Note := []

/-- Applies a change to the first member that passes a test. -/
def changeFirst {α : Type} (test : α → Bool) (change : α → α) : List α → List α
  | [] => []
  | a :: as => if test a then change a :: as else a :: changeFirst test change as

namespace Diagram

/-- The first node with an id. -/
def node? (d : Diagram) (id : String) : Option Node := d.nodes.find? (·.id = id)

/-- Puts a node behind all others. -/
def append (d : Diagram) (n : Node) : Diagram := { d with nodes := d.nodes ++ [n] }

/-- Puts a node before all others. -/
def prepend (d : Diagram) (n : Node) : Diagram := { d with nodes := n :: d.nodes }

/-- Draws one more edge. -/
def connect (d : Diagram) (e : Edge) : Diagram := { d with edges := d.edges ++ [e] }

/-- Changes the first node with an id. -/
def change (d : Diagram) (id : String) (f : Node → Node) : Diagram :=
  { d with nodes := changeFirst (·.id = id) f d.nodes }

/-- The nodes of a kind, in their order. -/
def ofKind (d : Diagram) (kind : NodeKind) : List Node := d.nodes.filter (·.kind = kind)

/-- Whether there is nothing to draw. -/
def isEmpty (d : Diagram) : Bool := d.nodes.isEmpty

end Diagram

end Flowchart
