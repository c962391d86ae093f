import Flowchart.Statement

/-!
# Edges

An edge names the two nodes it connects. A name may carry an anchor, `node@anchor`, that says where
the line touches the node; the part before the first `@` is the node itself. An edge of a built
diagram has its two nodes noted beside those names.
-/

namespace Flowchart

/-- The role of an edge in the flow. -/
inductive EdgeKind where
  /-- Along the main flow. -/
  | main
  /-- From a question whose answer is yes. -/
  | yes
  /-- From a question whose answer is no. -/
  | no
  /-- To or from an arm with a condition. -/
  | caseArm
  /-- To or from the arm for everything else. -/
  | elseArm
  /-- Whatever an author calls it. -/
  | other (name : String)
  deriving DecidableEq

namespace EdgeKind

/-- The kind with a given name. -/
def ofName (name : String) : EdgeKind :=
  match name with
  | "main" => .main
  | "yes" => .yes
  | "no" => .no
  | "case" => .caseArm
  | "else" => .elseArm
  | _ => .other name

/-- The name of a kind. -/
def name : EdgeKind → String
  | .main => "main"
  | .yes => "yes"
  | .no => "no"
  | .caseArm => "case"
  | .elseArm => "else"
  | .other name => name

end EdgeKind

/-- The name of a node without its anchor: what stands before the first `@`. -/
def withoutAnchor (reference : String) : String :=
  String.ofList (reference.toList.takeWhile (· != '@'))

/-- A directed connection between two nodes. -/
structure Edge where
  /-- The name of the node it leaves, perhaps with an anchor. -/
  source : String
  /-- The name of the node it enters, perhaps with an anchor. -/
  target : String
  /-- Its role in the flow. -/
  kind : EdgeKind
  /-- The text on the line. -/
  label : String := ""
  /-- The text beside the line, as it is written. -/
  note : String := ""
  /-- The handle of the line, as it is written. -/
  handle : String := ""
  /-- What is written on it, or noted when it is made up. -/
  attributes : Attributes := []
  /-- The node that `source` belongs to, once it is known. -/
  sourceNode : Option String := none
  /-- The node that `target` belongs to, once it is known. -/
  targetNode : Option String := none

namespace Edge

/-- Whether an attribute of the edge is the truth value `true`. -/
def flag (e : Edge) (key : String) : Bool := e.attributes.flag key

/-- Whether the edge was added to what the author wrote. -/
def isImplicit (e : Edge) : Bool := e.flag "implicit"

/-- The node an edge leaves. -/
def leaves (e : Edge) : String := e.sourceNode.getD (withoutAnchor e.source)

/-- The node an edge enters. -/
def enters (e : Edge) : String := e.targetNode.getD (withoutAnchor e.target)

/-- The edge with its two nodes noted. -/
def settle (e : Edge) (source target : String) : Edge :=
  { e with sourceNode := some source, targetNode := some target }

/-- An edge in one line. -/
def display (e : Edge) : String := e.source ++ " -> " ++ e.target ++ " [" ++ e.kind.name ++ "]"

end Edge

end Flowchart
