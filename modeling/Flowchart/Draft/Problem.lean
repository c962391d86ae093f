import Flowchart.Decimal.Text
import Flowchart.Diagnostic
import Flowchart.Outline

/-!
# What can be wrong with a diagram

Every fault that building a diagram can find is a cause here, with the names it is about. The
wording is in one place below.
-/

namespace Flowchart

/-- Where a reference to a node is written. -/
inductive Referrer where
  /-- Where a line starts. -/
  | lineSource
  /-- Where a line ends. -/
  | lineTarget
  /-- What a decoration is attached to. -/
  | attachmentTarget
  /-- What a note is pinned to. -/
  | noteTarget
  /-- Where a question leads. -/
  | questionNext (question : String)
  /-- Where a choice leads. -/
  | choiceNext (choice : String)
  /-- Where an arm leads. -/
  | armNext (arm : String)
  deriving DecidableEq

/-- The referrer as messages name it. -/
def Referrer.description : Referrer → String
  | .lineSource => "Line \"from\""
  | .lineTarget => "Line \"to\""
  | .attachmentTarget => "Attach target"
  | .noteTarget => "Note attaches_to"
  | .questionNext question => "Question \"" ++ question ++ "\" next"
  | .choiceNext choice => "Choice \"" ++ choice ++ "\" next"
  | .armNext arm => "Case \"" ++ arm ++ "\" next"

/-- A fault in what the statements say. -/
inductive BuildFault where
  /-- There is no block to build a diagram from. -/
  | missingRoot
  /-- An icon with this id stands at `first` already. -/
  | duplicateNode (id : String) (first : Span)
  /-- The name belongs to no node. -/
  | unknownReference (referrer : Referrer) (name : String)
  /-- A reference that is absent, blank or no text. -/
  | invalidReference (referrer : Referrer)
  /-- Icons of this kind are added by the library itself. -/
  | reservedBlock (name : String)
  /-- A block of this name must not stand in a lane. -/
  | unsupportedInLane (name lane : String)
  /-- A block of this name must not stand in a branch. -/
  | unsupportedInBranch (name : String) (side : Side) (question : String)
  /-- Nothing is written in a branch. -/
  | blankBranch (question : String) (side : Side)
  /-- Both answers of a question lead to branches. -/
  | twoBranches (question : String)
  /-- The branch asks for a column beyond the greatest one allowed. -/
  | columnTooFar (question : String) (side : Side) (requested : Float)
  /-- No icon of a branch became a node. -/
  | branchWithoutNodes (question : String) (side : Side)
  /-- The node that an edge leaves is missing. -/
  | danglingSource (reference : String)
  /-- The node that an edge enters is missing. -/
  | danglingTarget (reference : String)
  deriving DecidableEq

/-- The greatest column that a branch may ask for. -/
def greatestBranchColumn : Nat := 1024

namespace BuildFault

/-- The code of the fault. -/
def code : BuildFault → Code
  | .missingRoot => .missingRoot
  | .duplicateNode .. => .duplicateNode
  | .unknownReference .. | .danglingSource _ | .danglingTarget _ => .unknownReference
  | .invalidReference _ => .invalidReference
  | .reservedBlock _ => .reservedBlock
  | .unsupportedInLane .. | .unsupportedInBranch .. => .unsupportedBlock
  | .blankBranch .. | .twoBranches _ | .columnTooFar .. => .malformedBranch
  | .branchWithoutNodes .. => .emptyBranch

/-- A column out of reach is only a warning: the branch gets a new column instead. -/
def severity : BuildFault → Severity
  | .columnTooFar .. => .warning
  | _ => .error

/-- The message about a block that must not be written. -/
def reservedMessage (name : String) : String :=
  match name with
  | "parameters" =>
    "Define parameters inside the `drakon` block using `parameters = \x7b ... \x7d` " ++
      "instead of a standalone block."
  | "silhouette_loop" | "loop_silhouette" =>
    "The silhouette loop icon is managed by the renderer and cannot appear directly inside a lane."
  | _ => "Block \"" ++ name ++ "\" is implicit. Remove the explicit definition."

/-- A question and one of its branches, as messages name them. -/
def branchName (question : String) (side : Side) : String :=
  "Question \"" ++ question ++ "\" branch \"" ++ side.key ++ "\""

/-- The message about the fault. -/
def message : BuildFault → String
  | .missingRoot => "No `drakon` block found. Define the diagram first."
  | .duplicateNode id _ => "Duplicate node id \"" ++ id ++ "\"."
  | .unknownReference referrer name =>
    referrer.description ++ " refers to unknown node \"" ++ name ++ "\"."
  | .invalidReference referrer => referrer.description ++ " must be a non-empty string."
  | .reservedBlock name => reservedMessage name
  | .unsupportedInLane name lane =>
    "Block \"" ++ name ++ "\" is not supported within lane \"" ++ lane ++
      "\". Move it to the diagram root."
  | .unsupportedInBranch name side question =>
    "Block \"" ++ name ++ "\" is not supported inside question branch \"" ++ side.key ++
      "\" of \"" ++ question ++ "\"."
  | .blankBranch question side =>
    branchName question side ++ " must include at least one block."
  | .twoBranches question =>
    "Question \"" ++ question ++ "\" cannot define both \"yes\" and \"no\" branch blocks. " ++
      "Choose one explicit branch."
  | .columnTooFar question side requested =>
    branchName question side ++ " requests column " ++ Decimal.ofFloat requested ++
      ", past the last usable column " ++ toString greatestBranchColumn ++
      ". The branch gets a new column instead."
  | .branchWithoutNodes question side => branchName question side ++ " did not create any nodes."
  | .danglingSource reference => "Line references unknown source \"" ++ reference ++ "\"."
  | .danglingTarget reference => "Line references unknown target \"" ++ reference ++ "\"."

/-- How to mend the fault. -/
def help : BuildFault → Option String
  | .missingRoot => some "wrap the diagram in `drakon \"name\" \x7b ... \x7d`"
  | .duplicateNode .. => some "give each block a unique first label"
  | _ => none

end BuildFault

/-- A fault with the bytes of the block it was found in. -/
structure BuildProblem where
  /-- What is wrong. -/
  fault : BuildFault
  /-- The bytes of the block it was found in. -/
  span : Span := .nowhere
  deriving DecidableEq

namespace BuildProblem

/-- The labelled spans of a problem. What has no bytes in the source gets no label. -/
def labels (p : BuildProblem) : List Label :=
  let at? (span : Span) (message : String) (primary : Bool) : List Label :=
    if span.isEmpty then [] else [⟨span, message, primary⟩]
  match p.fault with
  | .duplicateNode _ first =>
    at? p.span "duplicate definition" true ++ at? first "first defined here" false
  | fault => at? p.span fault.code.description true

/-- The problem as a diagnostic. -/
def diagnostic (p : BuildProblem) : Diagnostic where
  severity := p.fault.severity
  code := some p.fault.code
  message := p.fault.message
  labels := p.labels
  help := p.fault.help

end BuildProblem

end Flowchart
