import Flowchart.Diagram

/-!
# Depths

The depth of a node is the weight of the longest path that leads to it. An edge to the head of a
branch weighs nothing, so the branch starts beside its question; every other edge weighs one.

Nodes without incoming arcs have depth zero. A node is taken when all its incoming arcs have been
followed, and then the arcs that leave it are followed. A node on a cycle, or behind one, is never
taken; it keeps the depth that the arcs followed so far give it.
-/

namespace Flowchart

/-- An edge between two different nodes of the diagram. -/
structure Arc where
  /-- The node that comes first. -/
  source : String
  /-- The node that comes later. -/
  target : String
  /-- How many levels later it comes at least. -/
  weight : Nat

/-- What is known of a node while depths are computed. -/
structure Layer where
  /-- The number of incoming arcs that have not been followed. -/
  waiting : Nat
  /-- The greatest depth that an incoming arc has given. -/
  depth : Option Nat

namespace Depth

/-- The arc of an edge. Edges to unknown nodes and from a node to itself count for nothing. -/
def arc? (ids : List String) (e : Edge) : Option Arc :=
  if e.leaves ≠ e.enters ∧ e.leaves ∈ ids ∧ e.enters ∈ ids then
    -- The head of a branch stands beside its question.
    some ⟨e.leaves, e.enters, if e.flag "branch_lane" then 0 else 1⟩
  else none

/-- What is known at the beginning. -/
def initial (ids : List String) (arcs : List Arc) : Table String Layer :=
  ids.map fun id =>
    let waiting := (arcs.filter (·.target = id)).length
    -- A node that waits for no arc is at the top.
    (id, ⟨waiting, if waiting = 0 then some 0 else none⟩)

/-- A layer after one more incoming arc. -/
def Layer.reach (l : Layer) (depth : Nat) : Layer :=
  ⟨l.waiting - 1, some (match l.depth with
    | some known => max known depth
    | none => depth)⟩

/-- Follows an arc that leaves a node of a given depth; a node whose last arc this was joins the
queue. -/
def follow (depth : Nat) (state : Table String Layer × List String) (a : Arc) :
    Table String Layer × List String :=
  let (layers, queue) := state
  let layers := layers.update a.target (Layer.reach · (depth + a.weight))
  let isLast := ((layers.get? a.target).map Layer.waiting) == some 0
  (layers, if isLast then queue ++ [a.target] else queue)

/-- The depth of a node as far as it is known. -/
def depthOf (layers : Table String Layer) (id : String) : Nat :=
  ((layers.get? id).bind Layer.depth).getD 0

/-- Takes the nodes of the queue, at most `count` of them. -/
def run (arcs : List Arc) : Nat → Table String Layer → List String → Table String Layer
  | 0, layers, _ => layers
  | _ + 1, layers, [] => layers
  | count + 1, layers, id :: queue =>
    let depth := depthOf layers id
    let (layers, queue) := (arcs.filter (·.source = id)).foldl (follow depth) (layers, queue)
    run arcs count layers queue

/-- The nodes without incoming arcs, which are taken first. -/
def seeds (ids : List String) (arcs : List Arc) : List String :=
  ids.filter fun id => !arcs.any (·.target = id)

/-- The depths of nodes that arcs connect. No node is taken twice, so their number bounds the
run. -/
def ofArcs (ids : List String) (arcs : List Arc) : Table String Nat :=
  (run arcs ids.length (initial ids arcs) (seeds ids arcs)).map fun (id, l) => (id, l.depth.getD 0)

end Depth

/-- The ids of a diagram's nodes, each of them once. -/
def Diagram.ids (d : Diagram) : List String := (d.nodes.map Node.id).eraseDups

/-- The arcs of a diagram. -/
def Diagram.arcs (d : Diagram) : List Arc := d.edges.filterMap (Depth.arc? d.ids)

/-- The depth of every node, in the order of the diagram. -/
def Diagram.depths (d : Diagram) : Table String Nat := Depth.ofArcs d.ids d.arcs

end Flowchart
