import Flowchart.Proofs.Draft.Outlines
import Flowchart.Proofs.Draft.Posts

/-!
# What placing a block comes to

A block is refused for its name or for its id; else its icon is entered, and what follows depends on
its kind. `PlacesIcon` lists the ways, each with the drafts that are passed through, and
`placeIcon_places` shows that there are no others. `FollowsQuestion` does the same for what follows
the icon of a question, and `PlacesChild` for a child of a choice.

A fact about placing blocks is shown once for every way, from what is known of the parts that the
way goes on to. The recursion on outlines then supplies the parts and does nothing else.
-/

namespace Flowchart

/-- An answer to the question that an outline is, asked under an id. -/
def Outline.answer (o : Outline) (id : String) (side : Side) : Answer :=
  ⟨id, side, o.block.attributes.trimmed? "next", o.block.span⟩

namespace Draft

/-- The id of a block in a column: its label, else its name with the number of its place. -/
def iconId (d : Draft) (b : Block) (column : Nat) : String :=
  b.label?.getD (b.name ++ "_" ++ toString ((d.columnIds column).length + 1))

/-- The id of an arm: its label, else the id of its choice with its name and its number; `count`
arms of the choice have been placed before. -/
def armId (b : Block) (choice : String) (count : Nat) : String :=
  b.label?.getD (choice ++ "_" ++ b.name ++ "_" ++ toString (count + 1))

/-- The icon of a block in a column. -/
def iconNode (d : Draft) (b : Block) (column : Nat) : Node :=
  b.node (.ofName b.name) (d.iconId b column) column

/-- The draft in which the icon of a block has been entered. -/
def entered (d : Draft) (b : Block) (column : Nat) : Draft := d.enter (d.iconNode b column) .back

/-- The icon of a block can be entered: the name is not reserved, and the id is free. -/
structure Admits (d : Draft) (b : Block) (column : Nat) : Prop where
  /-- The name is one that an author may write. -/
  allowed : isReserved b.name = false
  /-- No node has the id of the icon. -/
  free : d.hasNode (d.iconId b column) = false

/-- What follows the icon of a question: the drafts that are passed through, and the last one. -/
inductive FollowsQuestion (o : Outline) (id : String) (d : Draft) : List Draft → Draft → Prop
  /-- Without branches, an answer leads straight to the target. -/
  | direct (unbranched : ∀ side, o.branch side = none) :
      FollowsQuestion o id d (d.directTrail (o.answer id .no)) (d.keepDirect (o.answer id .no))
  /-- Two branches that are written are a problem, and neither is placed. -/
  | both {yes no : Branch} (yes_leads : o.branch .yes = some yes) (no_leads : o.branch .no = some no)
      (yes_written : yes.isWritten = true) (no_written : no.isWritten = true) :
      FollowsQuestion o id d [d.report (.twoBranches id) o.block.span]
        (d.report (.twoBranches id) o.block.span)
  /-- The only branch is placed. -/
  | only {side : Side} {b : Branch} (leads : o.branch side = some b)
      (alone : o.branch side.opposite = none) :
      FollowsQuestion o id d (branchTrail b (o.answer id side) d) (placeBranch b (o.answer id side) d)
  /-- Of two branches the one that has nothing written in it is a problem, and the other one is
  placed. -/
  | other {side : Side} {b blank : Branch} (leads : o.branch side = some b)
      (opposite : o.branch side.opposite = some blank) (unwritten : blank.isWritten = false) :
      FollowsQuestion o id d
        (d.report (.blankBranch id side.opposite) o.block.span ::
          branchTrail b (o.answer id side) (d.report (.blankBranch id side.opposite) o.block.span))
        (placeBranch b (o.answer id side) (d.report (.blankBranch id side.opposite) o.block.span))

/-- What placing a block comes to: the drafts that are passed through, and what is given. -/
inductive PlacesIcon (o : Outline) (column : Nat) (d : Draft) :
    List Draft → Draft × Option String → Prop
  /-- The block is refused for its name. -/
  | reserved (reserved : isReserved o.block.name = true) :
      PlacesIcon o column d [d.report (.reservedBlock o.block.name) o.block.span]
        (d.report (.reservedBlock o.block.name) o.block.span, none)
  /-- The block is refused for its id. -/
  | taken (allowed : isReserved o.block.name = false)
      (used : d.hasNode (d.iconId o.block column) = true) (first : Span) :
      PlacesIcon o column d [d.report (.duplicateNode (d.iconId o.block column) first) o.block.span]
        (d.report (.duplicateNode (d.iconId o.block column) first) o.block.span, none)
  /-- Behind the icon of a question, its branches are looked at. -/
  | question (new : d.Admits o.block column) (kind : NodeKind.ofName o.block.name = .question)
      {t : List Draft} {e : Draft}
      (asks : FollowsQuestion o (d.iconId o.block column) (d.entered o.block column) t e) :
      PlacesIcon o column d (d.entered o.block column :: t) (e, some (d.iconId o.block column))
  /-- Behind the icon of a choice, its children are placed, and its arms are kept. -/
  | choice (new : d.Admits o.block column) (kind : NodeKind.ofName o.block.name = .choice)
      {noted : Draft} (next : noted = (d.entered o.block column).keepChoiceNext
        (d.iconId o.block column) (o.block.attributes.trimmed? "next") o.block.span)
      {placed : Draft × List Arm}
      (arms : placed = placeArms o.children (d.iconId o.block column) column true [] noted) :
      PlacesIcon o column d
        (d.entered o.block column :: noted ::
          armsTrail o.children (d.iconId o.block column) column true [] noted ++
            [{ placed.1 with arms := placed.1.arms ++ placed.2 }])
        ({ placed.1 with arms := placed.1.arms ++ placed.2 }, some (d.iconId o.block column))
  /-- Behind the icon of a loop, its body is placed, and the loop is closed. -/
  | loop (new : d.Admits o.block column) (kind : NodeKind.ofName o.block.name = .forEach)
      (body : o.children ≠ []) {placed : Draft}
      (all : placed = placeAll o.children column (d.entered o.block column)) :
      PlacesIcon o column d
        (d.entered o.block column :: (allTrail o.children column (d.entered o.block column) ++
          placed.closeLoopTrail (d.iconId o.block column) column))
        (placed.closeLoop (d.iconId o.block column) column, some (d.iconId o.block column))
  /-- Behind any other icon nothing is placed, nor behind that of a loop without a body. -/
  | plain (new : d.Admits o.block column) (question : NodeKind.ofName o.block.name ≠ .question)
      (choice : NodeKind.ofName o.block.name ≠ .choice)
      (loop : NodeKind.ofName o.block.name = .forEach → o.children = []) :
      PlacesIcon o column d [d.entered o.block column]
        (d.entered o.block column, some (d.iconId o.block column))

/-- What placing a child of a choice comes to: the drafts that are passed through, the last one, and
the arms that have been placed then. -/
inductive PlacesChild (o : Outline) (choice : String) (column : Nat) (isFirst : Bool)
    (arms : List Arm) (d : Draft) : List Draft → Draft → List Arm → Prop
  /-- A child that opens no arm is placed like any other block. -/
  | icon (named : ArmKind.ofName? o.block.name = none) :
      PlacesChild o choice column isFirst arms d (iconTrail o column d) (placeIcon o column d).1 arms
  /-- An arm takes its column and is refused for its id. -/
  | taken {kind : ArmKind} (named : ArmKind.ofName? o.block.name = some kind) {armColumn : Nat}
      {opened : Draft} (opens : (if isFirst then (column, d) else d.openColumn) = (armColumn, opened))
      (used : opened.hasNode (armId o.block choice arms.length) = true) (first : Span) :
      PlacesChild o choice column isFirst arms d
        [opened, opened.report (.duplicateNode (armId o.block choice arms.length) first)
          o.block.span]
        (opened.report (.duplicateNode (armId o.block choice arms.length) first) o.block.span) arms
  /-- An arm takes its column, its icon is entered, and the blocks it holds are placed behind it. -/
  | arm {kind : ArmKind} (named : ArmKind.ofName? o.block.name = some kind) {armColumn : Nat}
      {opened : Draft} (opens : (if isFirst then (column, d) else d.openColumn) = (armColumn, opened))
      (free : opened.hasNode (armId o.block choice arms.length) = false) {entered : Draft}
      (head : entered = opened.enter
        (o.block.node kind.nodeKind (armId o.block choice arms.length) armColumn) .back)
      {placed : Draft × Option String}
      (body : placed = placeInArm o.children armColumn none entered) :
      PlacesChild o choice column isFirst arms d
        (opened :: entered :: allTrail o.children armColumn entered) placed.1
        (arms ++ [⟨choice, armId o.block choice arms.length, kind, placed.2,
          o.block.attributes.trimmed? "next", o.block.span⟩])

/-- Keeping the target of a choice changes the table of such targets only. -/
theorem keepChoiceNext_eq (d : Draft) (choice : String) (next : Option String) (span : Span) :
    ∃ choiceNexts, d.keepChoiceNext choice next span = { d with choiceNexts } := by
  cases next with
  | none => exact ⟨d.choiceNexts, rfl⟩
  | some next => exact ⟨_, rfl⟩

/-- Nothing is written in a branch: a problem. -/
theorem branchTrail_blank {b : Branch} (hb : b.isWritten = false) (a : Answer) (d : Draft) :
    branchTrail b a d = [d.report (.blankBranch a.question a.side) a.span] := by
  obtain ⟨isWritten, attributes, icons⟩ := b
  rw [Branch.isWritten] at hb
  rw [branchTrail, hb]
  rfl

/-- A branch with nothing written in it is a problem before the other one is placed. -/
theorem FollowsQuestion.of_blank {o : Outline} {side : Side} {b blank : Branch} (id : String)
    (d : Draft) (leads : o.branch side = some b) (opposite : o.branch side.opposite = some blank)
    (unwritten : blank.isWritten = false) :
    FollowsQuestion o id d
      (branchTrail blank (o.answer id side.opposite) d ++
        branchTrail b (o.answer id side) (placeBranch blank (o.answer id side.opposite) d))
      (placeBranch b (o.answer id side) (placeBranch blank (o.answer id side.opposite) d)) := by
  rw [placeBranch_blank unwritten, branchTrail_blank unwritten]
  exact .other leads opposite unwritten

/-- Placing a block comes to one of the ways listed. -/
theorem placeIcon_places (o : Outline) (column : Nat) (d : Draft) :
    PlacesIcon o column d (iconTrail o column d) (placeIcon o column d) := by
  obtain ⟨block, children, yes, no⟩ := o
  -- All that is asked of the outline are its four parts.
  suffices h : ∀ o : Outline, o.block = block → o.children = children → o.branch .yes = yes →
      o.branch .no = no → PlacesIcon o column d (iconTrail (.mk block children yes no) column d)
        (placeIcon (.mk block children yes no) column d) from h _ rfl rfl rfl rfl
  rintro o rfl rfl hyes hno
  rw [iconTrail, placeIcon]
  cases hreserved : isReserved o.block.name with
  | true => exact .reserved hreserved
  | false =>
    rw [if_neg Bool.false_ne_true, if_neg Bool.false_ne_true]
    have hid : o.block.label?.getD (o.block.name ++ "_" ++ toString
        ((d.columnIds column).length + 1)) = d.iconId o.block column := rfl
    have hnode : o.block.node (.ofName o.block.name) (d.iconId o.block column) column =
        d.iconNode o.block column := rfl
    rw [hid]
    dsimp only
    rw [hnode]
    rcases register_cases d (d.iconNode o.block column) .back with ⟨first, he, used⟩ | ⟨free, he⟩
    · -- The id is in use.
      rw [he]
      exact .taken hreserved used first
    · have hnew : d.Admits o.block column := ⟨hreserved, free⟩
      rw [he]
      simp only [Bool.not_true, Bool.false_eq_true, if_false]
      -- What follows the icon depends on its kind.
      cases hkind : NodeKind.ofName o.block.name with
      | question =>
        refine .question hnew hkind ?_
        cases yes with
        | none =>
          cases no with
          | none => exact .direct fun side => by cases side <;> [exact hyes; exact hno]
          | some n => exact .only hno hyes
        | some y =>
          cases no with
          | none => exact .only hyes hno
          | some n =>
            dsimp only
            cases hy : y.isWritten with
            | true =>
              cases hn : n.isWritten with
              | true => exact .both hyes hno hy hn
              | false => exact .of_blank _ _ hyes hno hn
            | false => exact .of_blank _ _ hno hyes hy
      | choice => exact .choice hnew hkind rfl rfl
      | forEach =>
        dsimp only
        cases hempty : o.children.isEmpty with
        | true =>
          exact .plain hnew (hkind ▸ NodeKind.noConfusion) (hkind ▸ NodeKind.noConfusion)
            fun _ => List.isEmpty_iff.mp hempty
        | false =>
          exact .loop hnew hkind (List.isEmpty_eq_false_iff.mp hempty) rfl
      | _ =>
        exact .plain hnew (hkind ▸ NodeKind.noConfusion) (hkind ▸ NodeKind.noConfusion)
          fun hloop => NodeKind.noConfusion (hkind.symm.trans hloop)

/-- Placing the children of a choice places the first of them in one of the ways listed, and the
others behind it. -/
theorem placeArms_places (o : Outline) (os : List Outline) (choice : String) (column : Nat)
    (isFirst : Bool) (arms : List Arm) (d : Draft) :
    ∃ t e more, PlacesChild o choice column isFirst arms d t e more ∧
      armsTrail (o :: os) choice column isFirst arms d =
        t ++ armsTrail os choice column false more e ∧
      placeArms (o :: os) choice column isFirst arms d = placeArms os choice column false more e := by
  obtain ⟨block, children, yes, no⟩ := o
  rw [armsTrail, placeArms]
  cases hnamed : ArmKind.ofName? block.name with
  | none => exact ⟨_, _, _, .icon (o := .mk block children yes no) hnamed, rfl, rfl⟩
  | some kind =>
    have hid : block.label?.getD (choice ++ "_" ++ block.name ++ "_" ++
        toString (arms.length + 1)) = armId block choice arms.length := rfl
    rw [hid]
    dsimp only
    generalize hopens : (if isFirst then (column, d) else d.openColumn) = opens
    obtain ⟨armColumn, opened⟩ := opens
    dsimp only
    rcases register_cases opened (block.node kind.nodeKind (armId block choice arms.length)
        armColumn) .back with ⟨first, he, used⟩ | ⟨free, he⟩
    · rw [he]
      exact ⟨_, _, _, .taken (o := .mk block children yes no) hnamed hopens used first, rfl, rfl⟩
    · rw [he]
      simp only [Bool.not_true, Bool.false_eq_true, if_false]
      exact ⟨_, _, _, .arm (o := .mk block children yes no) hnamed hopens free rfl rfl, rfl, rfl⟩

end Draft

end Flowchart
