import Flowchart.Geometry
import Flowchart.Statement

/-!
# Nodes

A node is an icon of the diagram. Its kind is the name of the block it was written as; names that
matter for the flow have a constructor of their own, all others are kept as they are.
-/

namespace Flowchart

/-- The kind of an icon. -/
inductive NodeKind where
  /-- Where the flow starts. -/
  | start
  /-- Where the flow ends. -/
  | finish
  /-- A step. -/
  | action
  /-- A question that is answered with yes or no. -/
  | question
  /-- A question with several answers, each of them an arm. -/
  | choice
  /-- An arm of a choice that its own condition opens. -/
  | caseArm
  /-- The arm of a choice for everything else. -/
  | elseArm
  /-- The parameters of the diagram. -/
  | parameters
  /-- The head of a loop. -/
  | forEach
  /-- The node that closes a loop. -/
  | loopEnd
  /-- Any other icon, by the name of its block. -/
  | other (name : String)
  deriving DecidableEq

namespace NodeKind

/-- The kind with a given name. -/
def ofName (name : String) : NodeKind :=
  match name with
  | "start" => .start
  | "end" => .finish
  | "action" => .action
  | "question" => .question
  | "choice" => .choice
  | "choice_case" => .caseArm
  | "choice_else" => .elseArm
  | "parameters" => .parameters
  | "for_each" => .forEach
  | "loop_end" => .loopEnd
  | _ => .other name

/-- The name of a kind. -/
def name : NodeKind → String
  | .start => "start"
  | .finish => "end"
  | .action => "action"
  | .question => "question"
  | .choice => "choice"
  | .caseArm => "choice_case"
  | .elseArm => "choice_else"
  | .parameters => "parameters"
  | .forEach => "for_each"
  | .loopEnd => "loop_end"
  | .other name => name

end NodeKind

/-- The size of an icon and the lines of text in it. -/
structure Frame where
  /-- The width of the icon. -/
  width : Float32
  /-- The height of the icon. -/
  height : Float32
  /-- The lines of its text. -/
  lines : List String
  /-- The height of one of these lines. -/
  lineHeight : Float32
  /-- The room kept free around the text. -/
  padding : Insets Float32

/-- An icon of the diagram. -/
structure Node where
  /-- The name that is its own. -/
  id : String
  /-- Its icon. -/
  kind : NodeKind
  /-- The column it stands in. -/
  column : Nat := 0
  /-- The text in the icon. -/
  label : String
  /-- What is written on it, and what building notes there. -/
  attributes : Attributes
  /-- The block the icon was written as, or a synthetic one. -/
  block : Block
  /-- Not known before the label has been wrapped. -/
  frame : Option Frame := none

namespace Node

/-- Whether the icon was added to what the author wrote. -/
def isImplicit (n : Node) : Bool := n.attributes.flag "implicit"

/-- A node in one line. -/
def display (n : Node) : String := n.id ++ " (" ++ n.kind.name ++ ")"

end Node

end Flowchart
