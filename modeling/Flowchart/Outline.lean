import Flowchart.Diagram

/-!
# Outlines

The outline of a block is the block together with the blocks it may expand into: the blocks of its
body, and what its attributes `yes` and `no` hold when the block is a question. An outline is a
plain tree, and diagrams are built by recursion on it.
-/

namespace Flowchart

/-- One of the two answers to a question. -/
inductive Side where
  /-- The answer is yes. -/
  | yes
  /-- The answer is no. -/
  | no
  deriving DecidableEq

namespace Side

/-- The other answer. -/
def opposite : Side → Side
  | .yes => .no
  | .no => .yes

/-- The attribute that holds what follows from the answer. -/
def key : Side → String
  | .yes => "yes"
  | .no => "no"

/-- The answer as a label. -/
def label : Side → String
  | .yes => "Yes"
  | .no => "No"

/-- The kind of edge that leaves a question with this answer. -/
def edgeKind : Side → EdgeKind
  | .yes => .yes
  | .no => .no

end Side

mutual

/-- A block with the outlines of the blocks in its body and its two branches. -/
inductive Outline where
  /-- A block, the outlines of the blocks in its body, and the branches that its two answers lead
  to. -/
  | mk (block : Block) (children : List Outline) (yes no : Option Branch)

/-- What an answer leads to. An empty pair of braces or brackets has nothing written in it. -/
inductive Branch where
  /-- Whether something is written in the branch, what it says of itself, and the outlines of its
  blocks. -/
  | mk (isWritten : Bool) (attributes : Attributes) (icons : List Outline)

end

/-- The block that is outlined. -/
def Outline.block : Outline → Block
  | .mk block _ _ _ => block

/-- The outlines of the blocks in the body. -/
def Outline.children : Outline → List Outline
  | .mk _ children _ _ => children

/-- Whether there is anything between the braces. -/
def Branch.isWritten : Branch → Bool
  | .mk isWritten _ _ => isWritten

/-- The attributes of a branch. -/
def Branch.attributes : Branch → Attributes
  | .mk _ attributes _ => attributes

/-- The outlines of the blocks in a branch. -/
def Branch.icons : Branch → List Outline
  | .mk _ _ icons => icons

mutual

/-- The outlines of the blocks among statements. -/
def Outline.ofStatements : List Statement → List Outline
  | [] => []
  | .attribute _ _ _ :: rest => Outline.ofStatements rest
  | .block name labels body span :: rest =>
    .mk ⟨name, labels, body, span⟩ (Outline.ofStatements body)
        (Branch.under Side.yes.key none body) (Branch.under Side.no.key none body) ::
      Outline.ofStatements rest
termination_by structural body => body

/-- The branch under a key; the last attribute with that key counts, and `found` is the branch under
the key among the statements before. -/
def Branch.under (key : String) (found : Option Branch) : List Statement → Option Branch
  | [] => found
  | .attribute k v _ :: rest =>
    Branch.under key (if k = key then Branch.ofValue v else found) rest
  | .block _ _ _ _ :: rest => Branch.under key found rest
termination_by structural body => body

/-- The branch that a value is, if it is one: anything in braces, or an empty list. -/
def Branch.ofValue : Value → Option Branch
  | .nested body =>
    some (.mk (!body.isEmpty) (Attributes.ofStatements body) (Outline.ofStatements body))
  -- Braces without a block in them may still say something, a column for instance.
  | .object entries => some (.mk (!entries.isEmpty) entries [])
  | .list [] => some (.mk false [] [])
  | _ => none
termination_by structural v => v

end

/-- The outline of a block. -/
def Block.outline (b : Block) : Outline :=
  .mk b (Outline.ofStatements b.body) (Branch.under Side.yes.key none b.body)
    (Branch.under Side.no.key none b.body)

end Flowchart
