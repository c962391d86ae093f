import Flowchart.Draft.Basic

/-!
# Placing icons

A block becomes an icon in a column, and what it holds is placed behind it. The body of a loop goes
into the same column and is closed by an icon of its own. The branch of a question goes into a
column that the branch asks for, or into a new one. The first child of a choice, if it is an arm,
shares the choice's column; every other arm opens a column.

All of this is one recursion on the outline of a block.
-/

namespace Flowchart

/-- Blocks that an author must not write as icons. -/
def isReserved (name : String) : Bool :=
  ["parameters", "silhouette_loop", "loop_silhouette", "start", "end"].contains name

/-- Blocks that take effect at the root of the diagram only. -/
def isRootOnly (name : String) : Bool := ["line", "attach", "note"].contains name

/-- One answer to a question, as it stands in the source. -/
structure Answer where
  /-- The question that is answered. -/
  question : String
  /-- Which answer it is. -/
  side : Side
  /-- The target written on the question. -/
  next : Option String
  /-- The bytes of the question. -/
  span : Span

namespace Draft

/-! ## Loops -/

/-- The first of `stem`, `stem_n`, `stem_(n+1)`, … that is not in use; `tries` bounds the search. -/
def freeId (d : Draft) (stem : String) (n : Nat) : Nat → String
  | 0 => stem ++ "_" ++ toString n
  | tries + 1 =>
    let id := stem ++ "_" ++ toString n
    if d.hasNode id then d.freeId stem (n + 1) tries else id

/-- An id for the icon that closes a loop. As many ids are tried as are in use. -/
def loopEndId (d : Draft) (loop : String) : String :=
  let id := loop ++ "_end"
  if d.hasNode id then d.freeId id 1 d.ids.length else id

/-- The icon that closes a loop. -/
def loopEndNode (d : Draft) (loop : String) (column : Nat) : Node :=
  let id := d.loopEndId loop
  { id
    kind := .loopEnd
    column
    label := ""
    attributes := .implicit [("loop", .text loop)]
    block := .synthetic "loop_end" id }

/-- Closes a loop below its body and notes the closing icon on the loop. -/
def closeLoop (d : Draft) (loop : String) (column : Nat) : Draft :=
  let node := d.loopEndNode loop column
  (d.register node .back).1.setAttribute loop "loop_end" (.text node.id)

/-! ## Questions -/

/-- Keeps a question for the time when edges are drawn. -/
def putFork (d : Draft) (a : Answer) (branchEnd : Option String) : Draft :=
  { d with forks := d.forks.put a.question ⟨a.side, branchEnd, a.next, a.span⟩ }

/-- Keeps a question and puts a summary on its icon. -/
def keepFork (d : Draft) (a : Answer) (branchEnd : Option String)
    (summary : List (String × Value)) : Draft :=
  (d.putFork a branchEnd).setAttribute a.question a.side.key (.object summary)

/-- An answer that leads straight to the target. -/
def keepDirect (d : Draft) (a : Answer) : Draft :=
  d.keepFork a none [("direct", .truth true), ("label", .text a.side.label)]

/-- The column of a branch: the one it asks for if that is a whole number and not too great, else a
new one. -/
def branchColumn (d : Draft) (a : Answer) (attributes : Attributes) : Nat × Draft :=
  match (attributes.get? "column").bind Value.number? with
  | none => d.openColumn
  | some requested =>
    -- A number that is not whole or is negative asks for nothing.
    match (Decimal.Binary.ofFloat requested).whole? with
    | none => d.openColumn
    | some column =>
      if column ≤ greatestBranchColumn then (column, d.useColumn column)
      else (d.report (.columnTooFar a.question a.side requested) a.span).openColumn

/-- The edge from a question to the first node of its branch. -/
def branchHead (a : Answer) (first : String) : Edge where
  source := a.question
  target := first
  kind := a.side.edgeKind
  label := a.side.label
  attributes := .implicit [("branch", .text a.side.key), ("branch_lane", .truth true)]

/-- Whether an edge leads from one node to another. -/
def hasEdge (d : Draft) (source target : String) : Bool :=
  d.diagram.edges.any fun e => e.leaves = source && e.enters = target

/-- Links a question to the first node of its branch, unless an edge does so already. -/
def linkBranch (d : Draft) (a : Answer) (first : String) : Draft :=
  if d.hasEdge a.question first then d else d.connect (branchHead a first) a.question first

/-- Links a question to the first node of its branch, once the nodes behind the first `before` ones
of the branch's column are those of the branch. -/
def closeBranch (d : Draft) (a : Answer) (column before : Nat) : Draft :=
  match (d.columnIds column).drop before with
  -- No block of the branch has become a node.
  | [] => d.report (.branchWithoutNodes a.question a.side) a.span
  | first :: rest =>
    let last := rest.getLast?.getD first
    (d.linkBranch a first).keepFork a (some last)
      [("column", .number (Float.ofNat column)), ("start", .text first), ("end", .text last)]

/-! ## Choices -/

/-- Keeps the target of a choice, if one is written. -/
def keepChoiceNext (d : Draft) (choice : String) (next : Option String) (span : Span) : Draft :=
  match next with
  | some next => { d with choiceNexts := d.choiceNexts ++ [⟨choice, next, span⟩] }
  | none => d

/-! ## The recursion -/

mutual

/-- Places a block and what it holds; gives the id of its icon unless the block is refused. -/
def placeIcon : Outline → Nat → Draft → Draft × Option String
  | .mk block children yes no, column, d =>
    if isReserved block.name then (d.report (.reservedBlock block.name) block.span, none)
    else
      let id := block.label?.getD
        (block.name ++ "_" ++ toString ((d.columnIds column).length + 1))
      let kind := NodeKind.ofName block.name
      let (d, isNew) := d.register (block.node kind id column) .back
      -- A block whose id is in use is left out with all that it holds.
      if !isNew then (d, none)
      else
        let next := block.attributes.trimmed? "next"
        let answer (side : Side) : Answer := ⟨id, side, next, block.span⟩
        let d :=
          match kind with
          | .question =>
            match yes, no with
            | none, none => d.keepDirect (answer .no)
            | some y, none => placeBranch y (answer .yes) d
            | none, some n => placeBranch n (answer .no) d
            | some y, some n =>
              -- Only one answer may have a branch. An answer that holds nothing goes first
              -- and is reported.
              if y.isWritten && n.isWritten then d.report (.twoBranches id) block.span
              else if y.isWritten then placeBranch y (answer .yes) (placeBranch n (answer .no) d)
              else placeBranch n (answer .no) (placeBranch y (answer .yes) d)
          | .choice =>
            let d := d.keepChoiceNext id next block.span
            let (d, arms) := placeArms children id column true [] d
            { d with arms := d.arms ++ arms }
          | .forEach =>
            if children.isEmpty then d else (placeAll children column d).closeLoop id column
          | _ => d
        (d, some id)
termination_by structural o => o

/-- Places blocks one below the other. -/
def placeAll : List Outline → Nat → Draft → Draft
  | [], _, d => d
  | o :: os, column, d => placeAll os column (placeIcon o column d).1
termination_by structural os => os

/-- Places what an answer leads to. A branch with nothing written in it is a problem, and one
without blocks leads straight to the target. -/
def placeBranch : Branch → Answer → Draft → Draft
  | .mk isWritten attributes icons, a, d =>
    if !isWritten then d.report (.blankBranch a.question a.side) a.span
    else if icons.isEmpty then d.keepDirect a
    else
      let (column, d) := d.branchColumn a attributes
      -- The column may have nodes already, and these are none of the branch.
      let before := (d.columnIds column).length
      (placeInBranch icons a column d).closeBranch a column before
termination_by structural b => b

/-- Places the blocks of a branch; those that belong to the root are refused. -/
def placeInBranch : List Outline → Answer → Nat → Draft → Draft
  | [], _, _, d => d
  | o :: os, a, column, d =>
    let d :=
      if isRootOnly o.block.name then
        d.report (.unsupportedInBranch o.block.name a.side a.question) o.block.span
      else (placeIcon o column d).1
    placeInBranch os a column d
termination_by structural os => os

/-- Places the children of a choice and gives its arms; `arms` are those placed before, and
`isFirst` holds for the first child. -/
def placeArms : List Outline → String → Nat → Bool → List Arm → Draft → Draft × List Arm
  | [], _, _, _, arms, d => (d, arms)
  | .mk block children yes no :: os, choice, column, isFirst, arms, d =>
    match ArmKind.ofName? block.name with
    | none =>
      placeArms os choice column false arms (placeIcon (.mk block children yes no) column d).1
    | some kind =>
      let id := block.label?.getD
        (choice ++ "_" ++ block.name ++ "_" ++ toString (arms.length + 1))
      -- The first child stays below the choice; an arm behind any other child opens a column.
      let (armColumn, d) := if isFirst then (column, d) else d.openColumn
      let (d, isNew) := d.register (block.node kind.nodeKind id armColumn) .back
      if !isNew then placeArms os choice column false arms d
      else
        let (d, armEnd) := placeInArm children armColumn none d
        let arm : Arm := ⟨choice, id, kind, armEnd, block.attributes.trimmed? "next", block.span⟩
        placeArms os choice column false (arms ++ [arm]) d
termination_by structural os => os

/-- Places the blocks of an arm and gives the id of the last icon among them; `last` is the one
before. -/
def placeInArm : List Outline → Nat → Option String → Draft → Draft × Option String
  | [], _, last, d => (d, last)
  | o :: os, column, last, d =>
    let (d, id) := placeIcon o column d
    placeInArm os column (id.or last) d
termination_by structural os => os

end

end Draft

end Flowchart
