import Flowchart.Proofs.Draft.Passage

/-!
# The drafts that placing icons passes through

`iconTrail` and its companions follow the recursion that places icons and list every draft it passes
through, one for each operation. Here are the passages of what the recursion does in one place; that
the whole list is a passage follows from the rules of expansion (`Expands.passage`).

A draft on the way is written with the very operations of the recursion, so a trail names no change
that is not made.
-/

namespace Flowchart.Draft

/-! ## The trails -/

/-- Keeping an answer that leads straight to the target. -/
def directTrail (d : Draft) (a : Answer) : List Draft := [d.putFork a none, d.keepDirect a]

/-- Finding the column of a branch. -/
def branchColumnTrail (d : Draft) (a : Answer) (attributes : Attributes) : List Draft :=
  match (attributes.get? "column").bind Value.number? with
  | none => [d.openColumn.2]
  | some requested =>
    match (Decimal.Binary.ofFloat requested).whole? with
    | none => [d.openColumn.2]
    | some column =>
      if column ≤ greatestBranchColumn then [d.useColumn column]
      else
        let d := d.report (.columnTooFar a.question a.side requested) a.span
        [d, d.openColumn.2]

/-- Linking a question to the first node of its branch and keeping it. -/
def closeBranchTrail (d : Draft) (a : Answer) (column before : Nat) : List Draft :=
  match (d.columnIds column).drop before with
  | [] => [d.closeBranch a column before]
  | first :: rest =>
    let linked := d.linkBranch a first
    [linked, linked.putFork a (some (rest.getLast?.getD first)), d.closeBranch a column before]

/-- Closing a loop below its body. -/
def closeLoopTrail (d : Draft) (loop : String) (column : Nat) : List Draft :=
  [(d.register (d.loopEndNode loop column) .back).1, d.closeLoop loop column]

mutual

/-- Placing a block and what it holds. -/
def iconTrail : Outline → Nat → Draft → List Draft
  | .mk block children yes no, column, d =>
    if isReserved block.name then [d.report (.reservedBlock block.name) block.span]
    else
      let id := block.label?.getD
        (block.name ++ "_" ++ toString ((d.columnIds column).length + 1))
      let kind := NodeKind.ofName block.name
      let (d, isNew) := d.register (block.node kind id column) .back
      d :: if !isNew then []
      else
        let next := block.attributes.trimmed? "next"
        let answer (side : Side) : Answer := ⟨id, side, next, block.span⟩
        match kind with
        | .question =>
          match yes, no with
          | none, none => d.directTrail (answer .no)
          | some y, none => branchTrail y (answer .yes) d
          | none, some n => branchTrail n (answer .no) d
          | some y, some n =>
            if y.isWritten && n.isWritten then [d.report (.twoBranches id) block.span]
            else if y.isWritten then
              branchTrail n (answer .no) d ++
                branchTrail y (answer .yes) (placeBranch n (answer .no) d)
            else
              branchTrail y (answer .yes) d ++
                branchTrail n (answer .no) (placeBranch y (answer .yes) d)
        | .choice =>
          let noted := d.keepChoiceNext id next block.span
          let (placed, arms) := placeArms children id column true [] noted
          noted :: armsTrail children id column true [] noted ++
            [{ placed with arms := placed.arms ++ arms }]
        | .forEach =>
          if children.isEmpty then []
          else
            allTrail children column d ++ closeLoopTrail (placeAll children column d) id column
        | _ => []
termination_by structural o => o

/-- Placing blocks one below the other. -/
def allTrail : List Outline → Nat → Draft → List Draft
  | [], _, _ => []
  | o :: os, column, d => iconTrail o column d ++ allTrail os column (placeIcon o column d).1
termination_by structural os => os

/-- Placing what an answer leads to. -/
def branchTrail : Branch → Answer → Draft → List Draft
  | .mk isWritten attributes icons, a, d =>
    if !isWritten then [d.report (.blankBranch a.question a.side) a.span]
    else if icons.isEmpty then d.directTrail a
    else
      let (column, opened) := d.branchColumn a attributes
      let before := (opened.columnIds column).length
      d.branchColumnTrail a attributes ++ inBranchTrail icons a column opened ++
        closeBranchTrail (placeInBranch icons a column opened) a column before
termination_by structural b => b

/-- Placing the blocks of a branch. -/
def inBranchTrail : List Outline → Answer → Nat → Draft → List Draft
  | [], _, _, _ => []
  | o :: os, a, column, d =>
    if isRootOnly o.block.name then
      let d := d.report (.unsupportedInBranch o.block.name a.side a.question) o.block.span
      d :: inBranchTrail os a column d
    else iconTrail o column d ++ inBranchTrail os a column (placeIcon o column d).1
termination_by structural os => os

/-- Placing the children of a choice. -/
def armsTrail : List Outline → String → Nat → Bool → List Arm → Draft → List Draft
  | [], _, _, _, _, _ => []
  | .mk block children yes no :: os, choice, column, isFirst, arms, d =>
    match ArmKind.ofName? block.name with
    | none =>
      iconTrail (.mk block children yes no) column d ++
        armsTrail os choice column false arms (placeIcon (.mk block children yes no) column d).1
    | some kind =>
      let id := block.label?.getD
        (choice ++ "_" ++ block.name ++ "_" ++ toString (arms.length + 1))
      let (armColumn, opened) := if isFirst then (column, d) else d.openColumn
      let (d, isNew) := opened.register (block.node kind.nodeKind id armColumn) .back
      opened :: d :: if !isNew then armsTrail os choice column false arms d
      else
        let (placed, armEnd) := placeInArm children armColumn none d
        let arm : Arm := ⟨choice, id, kind, armEnd, block.attributes.trimmed? "next", block.span⟩
        allTrail children armColumn d ++
          armsTrail os choice column false (arms ++ [arm]) placed
termination_by structural os => os

end

/-! ## The trails are passages -/

/-- What registering a node comes to: one operation, after which a node that was taken in is one of
the draft. -/
structure Registers (d : Draft) (id : String) (r : Draft × Bool) : Prop where
  /-- The draft makes one step. -/
  step : d.Step r.1
  /-- The node is there when it was taken in. -/
  hasNode : r.2 = true → r.1.hasNode id

/-- Registering a node. -/
theorem register_registers (d : Draft) (node : Node) (p : Placement) :
    Registers d node.id (d.register node p) := by
  unfold register
  split
  · exact ⟨.report _ _, fun h => Bool.noConfusion h⟩
  · rename_i hfree
    have hnot : d.hasNode node.id = false := by
      rw [Draft.hasNode, Table.has, hfree]
      rfl
    constructor
    · dsimp only
      exact .enter node p hnot
    · intro _
      obtain ⟨a, -, he⟩ := enter_eq d node p
      dsimp only
      rw [he, hasNode_iff]
      exact Table.mem_keys_put.mpr (.inl rfl)

/-- Keeping a question with a direct answer. -/
theorem keepDirect_passage {d : Draft} {a : Answer} (hq : d.hasNode a.question) :
    Passage d (d.directTrail a) (d.keepDirect a) :=
  .step (.keepFork a.question _ ⟨hq, fun _ h => nomatch h⟩) (Step.setAttribute _ _ _).passage

/-- Linking a question to the first node of its branch is one operation. -/
theorem linkBranch_step {d : Draft} {a : Answer} {first : String} (hq : d.hasNode a.question)
    (hf : d.hasNode first) : d.Step (d.linkBranch a first) := by
  unfold linkBranch
  split
  · exact .stay
  · exact .connect _ _ _ ⟨hq, hf, .inl rfl, .inl rfl⟩

/-- Linking a question to its branch and keeping it. -/
theorem closeBranch_passage {d : Draft} (h : d.Registry) {a : Answer} (hq : d.hasNode a.question)
    (column before : Nat) :
    Passage d (d.closeBranchTrail a column before) (d.closeBranch a column before) := by
  -- What the column lists are nodes, so the first and the last node of the branch are.
  have hcolumn : ∀ id ∈ (d.columnIds column).drop before, d.hasNode id := fun id hm =>
    h.hasNode_of_mem_column (List.mem_of_mem_drop hm)
  unfold closeBranchTrail closeBranch
  cases hdrop : (d.columnIds column).drop before with
  | nil => exact (Step.report _ _).passage
  | cons first rest =>
    rw [hdrop] at hcolumn
    have hfirst := hcolumn first List.mem_cons_self
    have hlast : d.hasNode (rest.getLast?.getD first) := by
      cases hl : rest.getLast? with
      | none => exact hfirst
      | some last => exact hcolumn last (List.mem_cons_of_mem _ (List.mem_of_getLast? hl))
    have hlink := linkBranch_step hq hfirst
    refine .step hlink (.step ?_ ?_)
    · refine .keepFork a.question _ ⟨hlink.extends.hasNode _ hq, fun last hl => ?_⟩
      exact Option.mem_some_iff.mp hl ▸ hlink.extends.hasNode _ hlast
    · exact (Step.setAttribute _ _ _).passage

/-- Keeping the target of a choice is one operation. -/
theorem keepChoiceNext_step (d : Draft) (choice : String) (next : Option String) (span : Span) :
    d.Step (d.keepChoiceNext choice next span) := by
  unfold keepChoiceNext
  split
  · exact .keepChoiceNext _
  · exact .stay

end Flowchart.Draft
