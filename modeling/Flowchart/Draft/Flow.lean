import Flowchart.Draft.Reference

/-!
# Drawing the edges

Edges come from five sources, in this order: the lines an author writes, consecutive nodes of a
column, questions, and the arms of choices; the heads of branches have been linked while they were
placed. Every source but the first leaves out a pair of nodes that is linked already.
-/

namespace Flowchart

/-- The pairs of neighbours in a list. -/
def neighbours {α : Type} (as : List α) : List (α × α) := as.zip as.tail

/-- The nodes that questions, choices and arms go on with, as far as they are written and known. -/
structure Targets where
  /-- The targets of questions. -/
  questions : Table String Reference := []
  /-- The targets of choices. -/
  choices : Table String Reference := []
  /-- The targets of arms. -/
  arms : Table String Reference := []

namespace Targets

/-- The target of a question: its own, else the default. -/
def ofFork (targets : Targets) (default : Option Reference) (question : String) :
    Option Reference :=
  (targets.questions.get? question).or default

/-- The target of an arm: its own, else that of its choice, else the default. -/
def ofArm (targets : Targets) (default : Option Reference) (arm : Arm) : Option Reference :=
  ((targets.arms.get? arm.id).or (targets.choices.get? arm.choice)).or default

end Targets

namespace Draft

/-! ## Lines -/

/-- The edge of a line between two nodes; `a` are the attributes of its block. -/
def lineEdge (a : Attributes) (source target : Reference) : Edge :=
  let a : Attributes := (a.put "from" (.text source.full)).put "to" (.text target.full)
  { source := source.full
    target := target.full
    kind := ((a.text? "kind").map EdgeKind.ofName).getD .main
    label := (a.text? "label").getD ""
    note := (a.text? "note").getD ""
    handle := (a.text? "handle").getD ""
    attributes := a }

/-- Draws a line from one node to another, unless one of them is unknown. -/
def drawLine (d : Draft) (b : Block) : Draft :=
  let (d, source) := d.resolve (b.attributes.get? "from") .lineSource b.span
  let (d, target) := d.resolve (b.attributes.get? "to") .lineTarget b.span
  match source, target with
  | some source, some target =>
    (d.noteLinked source.node target.node).connect (lineEdge b.attributes source target)
      source.node target.node
  | _, _ => d

/-- Draws an edge between two nodes unless they are linked already. -/
def link (d : Draft) (edge : Edge) (source target : String) : Draft :=
  if d.linked.contains (source, target) then d
  else (d.noteLinked source target).connect edge source target

/-! ## Targets -/

/-- A draft with the targets looked up so far. -/
abbrev Lookup := Draft × Table String Reference

/-- Looks up one target; what is unknown is a problem and gives no entry. -/
def resolveNext (referrer : String → Referrer) (looked : Lookup) (id next : String) (span : Span) :
    Lookup :=
  let (d, targets) := looked
  let (d, reference) := d.resolve (some (.text next)) (referrer id) span
  (d, match reference with
    | some reference => targets.put id reference
    | none => targets)

/-- Looks up what a question goes on with, if that is written. -/
def resolveFork (looked : Lookup) : String × Fork → Lookup
  | (id, fork) =>
    match fork.next with
    | some next => resolveNext .questionNext looked id next fork.span
    | none => looked

/-- Looks up what a choice goes on with. -/
def resolveChoice (looked : Lookup) (written : ChoiceNext) : Lookup :=
  resolveNext .choiceNext looked written.choice written.next written.span

/-- Looks up what an arm goes on with, if that is written. -/
def resolveArm (looked : Lookup) (arm : Arm) : Lookup :=
  match arm.next with
  | some next => resolveNext .armNext looked arm.id next arm.span
  | none => looked

/-- Looks up what questions, then choices, then arms go on with. -/
def resolveTargets (d : Draft) : Draft × Targets :=
  let (d, questions) := d.forks.foldl resolveFork (d, [])
  let (d, choices) := d.choiceNexts.foldl resolveChoice (d, [])
  let (d, arms) := d.arms.foldl resolveArm (d, [])
  (d, { questions, choices, arms })

/-- Where the flow goes on unless something else is written: the node called `end`, else the first
end icon. -/
def defaultTarget (d : Draft) : Option Reference :=
  let firstEnd := d.diagram.nodes.find? (·.kind.name = "end")
  ((d.aliases.get? "end").or (firstEnd.map Node.id)).map .toNode

/-! ## Columns -/

/-- Whether the kind of a node has a given name. -/
def isCalled (d : Draft) (id kind : String) : Bool :=
  (d.diagram.node? id).any (·.kind.name = kind)

/-- Whether the edges that leave a node are those of its branches or arms. -/
def isBranching (d : Draft) (id : String) : Bool :=
  -- A question or a choice of which nothing is kept goes on like any other node.
  (d.isCalled id "question" && d.forks.has id) ||
    (d.isCalled id "choice" && d.arms.any (·.choice = id))

/-- Links two neighbours of a column, unless the first one has edges of its own. -/
def linkNeighbours (d : Draft) : String × String → Draft
  | (source, target) =>
    if d.isBranching source then d
    else
      let edge : Edge := { source, target, kind := .main, attributes := .implicit [] }
      d.link edge source target

/-- The neighbours in the columns of a draft. -/
def columnPairs (d : Draft) : List (String × String) :=
  d.columns.flatMap fun (_, ids) => neighbours ids

/-- Links consecutive nodes of every column. -/
def linkColumns (d : Draft) : Draft := d.columnPairs.foldl linkNeighbours d

/-! ## Questions and choices -/

/-- Brings a branch back to the target, unless it ends there. -/
def rejoin (d : Draft) (last branch : String) (target : Reference) : Draft :=
  if last = target.node then d
  else
    let edge : Edge :=
      { source := last
        target := target.full
        kind := .main
        attributes := .implicit [("branch", .text branch), ("rejoin", .truth true)] }
    d.link edge last target.node

/-- The edge from a question to its target for one answer; `role` says why it is drawn. -/
def forkEdge (question : String) (target : Reference) (side : Side) (role : String) : Edge where
  source := question
  target := target.full
  kind := side.edgeKind
  label := side.label
  attributes := .implicit [("branch", .text side.key), (role, .truth true)]

/-- Draws the main path of a question to its target. -/
def linkMain (d : Draft) (question : String) (fork : Fork) (target : Reference) : Draft :=
  d.link (forkEdge question target fork.side.opposite "branch_main") question target.node

/-- Draws the main path of a question and its branch. A branch that leads straight to the target
shares both ends with the main path and is drawn all the same. -/
def linkFork (d : Draft) (question : String) (fork : Fork) (target : Reference) : Draft :=
  let d := d.linkMain question fork target
  match fork.branchEnd with
  -- Both edges join the same two nodes, so the second one must not be checked for that.
  | none => d.connect (forkEdge question target fork.side "branch_direct") question target.node
  | some last => d.rejoin last fork.side.key target

/-- Draws the edges of a question, unless it has no target. -/
def linkQuestion (targets : Targets) (default : Option Reference) (d : Draft) :
    String × Fork → Draft
  | (question, fork) =>
    match targets.ofFork default question with
    | some target => d.linkFork question fork target
    | none => d

/-- Draws the edges of every question. -/
def linkForks (d : Draft) (targets : Targets) (default : Option Reference) : Draft :=
  d.forks.foldl (linkQuestion targets default) d

/-- The attributes of an edge of an arm; `role` says why it is drawn. -/
def armAttributes (arm : Arm) (role : String) : Attributes :=
  .implicit [("branch", .text arm.kind.name), (role, .truth true)]

/-- Draws the edge from a choice to an arm. -/
def linkHead (d : Draft) (arm : Arm) : Draft :=
  let edge : Edge :=
    { source := arm.choice
      target := arm.id
      kind := arm.kind.edgeKind
      attributes := armAttributes arm "branch_case" }
  d.link edge arm.choice arm.id

/-- Draws the edge from a choice to an arm, and the arm's way to the target if there is one. -/
def linkArm (d : Draft) (arm : Arm) (target : Option Reference) : Draft :=
  let d := d.linkHead arm
  match target, arm.armEnd with
  -- Without a target the arm ends where it is.
  | none, _ => d
  | some target, none =>
    let edge : Edge :=
      { source := arm.id
        target := target.full
        kind := arm.kind.edgeKind
        attributes := armAttributes arm "branch_direct" }
    d.link edge arm.id target.node
  | some target, some last => d.rejoin last arm.kind.name target

/-- The arms with those of the same choice together, choices in the order of their first arms. -/
def groupedArms (arms : List Arm) : List Arm :=
  (arms.map Arm.choice).eraseDups.flatMap fun choice => arms.filter (·.choice = choice)

/-- Draws the edges of every choice. -/
def linkArms (d : Draft) (targets : Targets) (default : Option Reference) : Draft :=
  (groupedArms d.arms).foldl (fun d arm => d.linkArm arm (targets.ofArm default arm)) d

/-! ## The last check -/

/-- The problems of an edge whose ends are no nodes. -/
def danglingEnds (d : Draft) (e : Edge) : List BuildFault :=
  (if d.hasNode e.leaves then [] else [.danglingSource e.source]) ++
    if d.hasNode e.enters then [] else [.danglingTarget e.target]

/-- Notes the two nodes of every edge and reports the ends that are no nodes. -/
def settleEdges (d : Draft) : Draft :=
  let faults := d.diagram.edges.flatMap d.danglingEnds
  let edges := d.diagram.edges.map fun e => e.settle e.leaves e.enters
  faults.foldl (fun d fault => d.report fault) { d with diagram := { d.diagram with edges } }

end Draft

end Flowchart
