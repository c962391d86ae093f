import Flowchart.Proofs.Draft.Implicit
import Flowchart.Proofs.Root.Contents
import Flowchart.Proofs.Statement.Places

/-!
# Where the problems of a draft point

A problem of a draft points at the block it was found in and, when that block has taken an id in
use, at the block that stands there already. The spans come from the blocks that are placed, and
some are remembered on the way: with every id, and with the questions, the arms and the targets of
choices whose edges are still to be drawn. `Draft.PointsAt P` says that all of them satisfy `P`;
each operation keeps it when the block it works on stands at such a span.
-/

namespace Flowchart

/-- The span at which another block has been found, if the fault is about one. -/
def BuildFault.first? : BuildFault → Option Span
  | .duplicateNode _ first => some first
  | _ => none

/-- The spans at which a problem points. -/
def BuildProblem.spans (p : BuildProblem) : List Span := p.span :: p.fault.first?.toList

/-- The label for a span stands at that span. -/
theorem mem_label {span : Span} {message : String} {primary : Bool} {l : Label}
    (h : l ∈ if span.isEmpty then [] else [(⟨span, message, primary⟩ : Label)]) :
    l.span = span := by
  split at h
  · exact absurd h List.not_mem_nil
  · rw [List.mem_singleton.mp h]

/-- The labels of a problem stand at spans at which it points. -/
theorem BuildProblem.mem_spans_of_mem_labels {p : BuildProblem} {l : Label} (h : l ∈ p.labels) :
    l.span ∈ p.spans := by
  obtain ⟨fault, span⟩ := p
  cases fault with
  | duplicateNode id first =>
    rcases List.mem_append.mp h with h | h
    · exact List.mem_cons.mpr (.inl (mem_label h))
    · exact List.mem_cons_of_mem _ (List.mem_singleton.mpr (mem_label h))
  | _ => exact List.mem_cons.mpr (.inl (mem_label h))

namespace Draft

/-- The problems of a draft point at spans that satisfy `P`, and so do the spans that it
remembers. -/
structure PointsAt (P : Span → Prop) (d : Draft) : Prop where
  /-- The spans of the problems. -/
  problems : ∀ p ∈ d.problems, ∀ s ∈ p.spans, P s
  /-- The spans kept with the ids. -/
  ids : ∀ p ∈ d.ids, P p.2
  /-- The spans of the questions. -/
  forks : ∀ p ∈ d.forks, P p.2.span
  /-- The spans of the arms. -/
  arms : ∀ arm ∈ d.arms, P arm.span
  /-- The spans of the choices that have targets. -/
  choiceNexts : ∀ written ∈ d.choiceNexts, P written.span

variable {P : Span → Prop} {d e : Draft}

/-! ## Single operations -/

/-- Nothing that points at a span has changed. -/
theorem PointsAt.of_same (h : d.PointsAt P) (problems : e.problems = d.problems)
    (ids : e.ids = d.ids) (forks : e.forks = d.forks) (arms : e.arms = d.arms)
    (choiceNexts : e.choiceNexts = d.choiceNexts) : e.PointsAt P :=
  ⟨problems ▸ h.problems, ids ▸ h.ids, forks ▸ h.forks, arms ▸ h.arms,
    choiceNexts ▸ h.choiceNexts⟩

/-- A problem is noted that points at a span and perhaps at an earlier block. -/
theorem PointsAt.note (h : d.PointsAt P) {fault : BuildFault} {span : Span} (hspan : P span)
    (hfirst : ∀ first ∈ fault.first?, P first) : (d.report fault span).PointsAt P := by
  refine ⟨fun p hp s hs => ?_, h.ids, h.forks, h.arms, h.choiceNexts⟩
  rcases List.mem_append.mp hp with hp | hp
  · exact h.problems p hp s hs
  · rw [List.mem_singleton.mp hp] at hs
    rcases List.mem_cons.mp hs with rfl | hs
    · exact hspan
    · exact hfirst s (Option.mem_toList.mp hs)

/-- A problem is noted that points at a span only. -/
theorem PointsAt.report (h : d.PointsAt P) {fault : BuildFault} (hfault : fault.first? = none)
    {span : Span} (hspan : P span) : (d.report fault span).PointsAt P :=
  h.note hspan fun _ hfirst => nomatch hfault ▸ hfirst

/-- Opening a column remembers no span. -/
theorem PointsAt.useColumn (h : d.PointsAt P) (column : Nat) : (d.useColumn column).PointsAt P :=
  h.of_same rfl rfl rfl rfl rfl

/-- An attribute that is set has no span. -/
theorem PointsAt.setAttribute (h : d.PointsAt P) (id key : String) (value : Value) :
    (d.setAttribute id key value).PointsAt P := h.of_same rfl rfl rfl rfl rfl

/-- A name that is claimed has no span. -/
theorem PointsAt.claim (h : d.PointsAt P) (name id : String) : (d.claim name id).PointsAt P := by
  obtain ⟨aliases, -, he⟩ := claim_eq d name id
  rw [he]
  exact h.of_same rfl rfl rfl rfl rfl

/-- A node is taken in with the span of its block. -/
theorem PointsAt.enter (h : d.PointsAt P) {node : Node} (hnode : P node.block.span)
    (p : Placement) : (d.enter node p).PointsAt P := by
  obtain ⟨aliases, -, he⟩ := enter_eq d node p
  rw [he]
  refine ⟨h.problems, ?_, h.forks, h.arms, h.choiceNexts⟩
  rintro ⟨id, span⟩ hmem
  rcases Table.mem_put hmem with ⟨-, rfl⟩ | hmem
  · exact hnode
  · exact h.ids _ hmem

/-- A node is taken in, or its block is reported together with the one that has its id. -/
theorem PointsAt.register (h : d.PointsAt P) (node : Node) (hnode : P node.block.span)
    (p : Placement) : (d.register node p).1.PointsAt P := by
  unfold Draft.register
  cases hfirst : d.ids.get? node.id with
  | some first =>
    refine h.note hnode fun s hs => ?_
    rw [← Option.some.inj hs]
    exact h.ids _ (Table.mem_of_get? hfirst)
  | none =>
    dsimp only
    exact h.enter hnode p

/-- The node that closes a loop stands nowhere in the source. -/
theorem PointsAt.closeLoop (h : d.PointsAt P) (hnowhere : P .nowhere) (loop : String)
    (column : Nat) : (d.closeLoop loop column).PointsAt P :=
  (h.register (d.loopEndNode loop column) hnowhere .back).setAttribute _ _ _

/-- A question is kept with the span of its block. -/
theorem PointsAt.keepFork (h : d.PointsAt P) {a : Answer} (ha : P a.span)
    (branchEnd : Option String) (summary : List (String × Value)) :
    (d.keepFork a branchEnd summary).PointsAt P := by
  refine ⟨h.problems, h.ids, ?_, h.arms, h.choiceNexts⟩
  rintro ⟨question, fork⟩ hmem
  rcases Table.mem_put hmem with ⟨-, rfl⟩ | hmem
  · exact ha
  · exact h.forks _ hmem

/-- A column that cannot be used is reported at the question. -/
theorem PointsAt.branchColumn (h : d.PointsAt P) {a : Answer} (ha : P a.span)
    (attributes : Attributes) : (d.branchColumn a attributes).2.PointsAt P := by
  unfold Draft.branchColumn
  cases (attributes.get? "column").bind Value.number? with
  | none => exact h.useColumn _
  | some requested =>
    dsimp only
    cases (Decimal.Binary.ofFloat requested).whole? with
    | none => exact h.useColumn _
    | some column =>
      dsimp only
      split
      · exact h.useColumn column
      · exact (h.report rfl ha).useColumn _

/-- An empty branch is reported at the question. -/
theorem PointsAt.closeBranch (h : d.PointsAt P) {a : Answer} (ha : P a.span) (column before : Nat) :
    (d.closeBranch a column before).PointsAt P := by
  unfold Draft.closeBranch
  cases (d.columnIds column).drop before with
  | nil => exact h.report rfl ha
  | cons first rest =>
    have hlinked : (d.linkBranch a first).PointsAt P := by
      unfold linkBranch
      split
      · exact h
      · exact h.of_same rfl rfl rfl rfl rfl
    exact hlinked.keepFork ha _ _

/-- The target of a choice is kept with the span of its block. -/
theorem PointsAt.keepChoiceNext (h : d.PointsAt P) (choice : String) (next : Option String)
    {span : Span} (hspan : P span) : (d.keepChoiceNext choice next span).PointsAt P := by
  cases next with
  | none => exact h
  | some next =>
    refine ⟨h.problems, h.ids, h.forks, h.arms, fun written hw => ?_⟩
    rcases List.mem_append.mp hw with hw | hw
    · exact h.choiceNexts written hw
    · rw [List.mem_singleton.mp hw]
      exact hspan

/-! ## The recursion on outlines -/

mutual

/-- Placing a block points at it and at the blocks inside it. -/
theorem placeIcon_pointsAt (hnowhere : P .nowhere) : ∀ (o : Outline) (column : Nat) {d : Draft},
    StandAt P o.all → d.PointsAt P → (placeIcon o column d).1.PointsAt P
  | .mk block children yes no, column, d, hP, h => by
    obtain ⟨hblock, hchildren, hyes, hno⟩ := all_mk hP
    rw [placeIcon]
    split
    · exact h.report rfl hblock
    · dsimp only
      -- Whether the node is taken in or refused, the draft points at the block.
      have hregistered := h.register (block.node (.ofName block.name) (block.label?.getD
        (block.name ++ "_" ++ toString ((d.columnIds column).length + 1))) column) hblock .back
      generalize d.register _ .back = registered at hregistered
      obtain ⟨e, isNew⟩ := registered
      cases isNew with
      | false => exact hregistered
      | true =>
        simp only [Bool.not_true, Bool.false_eq_true, if_false]
        cases NodeKind.ofName block.name with
        | question =>
          cases yes with
          | none =>
            cases no with
            | none => exact hregistered.keepFork hblock _ _
            | some n => exact placeBranch_pointsAt hnowhere n hno hblock hregistered
          | some y =>
            cases no with
            | none => exact placeBranch_pointsAt hnowhere y hyes hblock hregistered
            | some n =>
              dsimp only
              split
              · exact hregistered.report rfl hblock
              · split
                · -- The branch that holds nothing goes first, and it is a problem.
                  exact placeBranch_pointsAt hnowhere y hyes hblock
                    (placeBranch_pointsAt hnowhere n hno hblock hregistered)
                · exact placeBranch_pointsAt hnowhere n hno hblock
                    (placeBranch_pointsAt hnowhere y hyes hblock hregistered)
        | choice =>
          have hnext := hregistered.keepChoiceNext (block.label?.getD
            (block.name ++ "_" ++ toString ((d.columnIds column).length + 1)))
            (block.attributes.trimmed? "next") hblock
          obtain ⟨hplaced, harms⟩ := placeArms_pointsAt hnowhere children _ column true hchildren
            (fun _ ha => absurd ha List.not_mem_nil) hnext
          -- Arms are kept with the spans of their blocks.
          refine ⟨hplaced.problems, hplaced.ids, hplaced.forks, fun arm ha => ?_,
            hplaced.choiceNexts⟩
          exact (List.mem_append.mp ha).elim (hplaced.arms arm) (harms arm)
        | forEach =>
          dsimp only
          split
          · exact hregistered
          · exact (placeAll_pointsAt hnowhere children column hchildren hregistered).closeLoop
              hnowhere _ column
        | _ => exact hregistered
termination_by structural o => o

/-- Placing blocks one below the other points at them. -/
theorem placeAll_pointsAt (hnowhere : P .nowhere) : ∀ (os : List Outline) (column : Nat)
    {d : Draft}, StandAt P (Outline.allOf os) → d.PointsAt P → (placeAll os column d).PointsAt P
  | [], _, _, _, h => h
  | o :: os, column, _, hP, h =>
    have ⟨ho, hos⟩ := allOf_cons hP
    placeAll_pointsAt hnowhere os column hos (placeIcon_pointsAt hnowhere o column ho h)
termination_by structural os => os

/-- Placing what an answer leads to points at the question and at the blocks of the branch. -/
theorem placeBranch_pointsAt (hnowhere : P .nowhere) : ∀ (b : Branch) {a : Answer} {d : Draft},
    StandAt P (Branch.allOf (some b)) → P a.span → d.PointsAt P →
    (placeBranch b a d).PointsAt P
  | .mk isWritten attributes icons, a, d, hP, ha, h => by
    rw [placeBranch]
    split
    · exact h.report rfl ha
    · split
      · exact h.keepFork ha _ _
      · have hopened := h.branchColumn ha attributes
        generalize d.branchColumn a attributes = opened at hopened
        obtain ⟨column, e⟩ := opened
        exact (placeInBranch_pointsAt hnowhere icons column hP ha hopened).closeBranch ha _ _
termination_by structural b => b

/-- Placing the blocks of a branch points at them. -/
theorem placeInBranch_pointsAt (hnowhere : P .nowhere) : ∀ (os : List Outline) {a : Answer}
    (column : Nat) {d : Draft}, StandAt P (Outline.allOf os) → P a.span →
    d.PointsAt P → (placeInBranch os a column d).PointsAt P
  | [], _, _, _, _, _, h => h
  | o :: os, a, column, d, hP, ha, h => by
    obtain ⟨ho, hos⟩ := allOf_cons hP
    rw [placeInBranch]
    split
    · exact placeInBranch_pointsAt hnowhere os column hos ha (h.report rfl (ho o (self_mem_all o)))
    · exact placeInBranch_pointsAt hnowhere os column hos ha
        (placeIcon_pointsAt hnowhere o column ho h)
termination_by structural os => os

/-- Placing the children of a choice points at them, and so do the arms that are kept. -/
theorem placeArms_pointsAt (hnowhere : P .nowhere) : ∀ (os : List Outline) (choice : String)
    (column : Nat) (isFirst : Bool) {arms : List Arm} {d : Draft},
    StandAt P (Outline.allOf os) → (∀ arm ∈ arms, P arm.span) → d.PointsAt P →
    (placeArms os choice column isFirst arms d).1.PointsAt P ∧
      ∀ arm ∈ (placeArms os choice column isFirst arms d).2, P arm.span
  | [], _, _, _, _, _, _, harms, h => ⟨h, harms⟩
  | .mk block children yes no :: os, choice, column, isFirst, arms, d, hP, harms, h => by
    obtain ⟨ho, hos⟩ := allOf_cons hP
    obtain ⟨hblock, hchildren, -, -⟩ := all_mk ho
    rw [placeArms]
    cases ArmKind.ofName? block.name with
    -- A child that opens no arm is placed in the column of the choice.
    | none =>
      exact placeArms_pointsAt hnowhere os choice column false hos harms
        (placeIcon_pointsAt hnowhere (.mk block children yes no) column ho h)
    | some kind =>
      dsimp only
      -- Opening a column points at nothing.
      have hopened : (if isFirst then (column, d) else d.openColumn).2.PointsAt P := by
        split
        · exact h
        · exact h.useColumn _
      generalize (if isFirst then (column, d) else d.openColumn) = opened at hopened
      obtain ⟨armColumn, opened⟩ := opened
      dsimp only
      have hregistered := hopened.register (block.node kind.nodeKind (block.label?.getD
        (choice ++ "_" ++ block.name ++ "_" ++ toString (arms.length + 1))) armColumn) hblock .back
      generalize opened.register _ .back = registered at hregistered
      obtain ⟨e, isNew⟩ := registered
      cases isNew with
      | false => exact placeArms_pointsAt hnowhere os choice column false hos harms hregistered
      | true =>
        simp only [Bool.not_true, Bool.false_eq_true, if_false]
        have hplaced := placeInArm_pointsAt hnowhere children armColumn none hchildren hregistered
        generalize placeInArm children armColumn none e = placed at hplaced
        obtain ⟨f, armEnd⟩ := placed
        refine placeArms_pointsAt hnowhere os choice column false hos (fun arm ha => ?_) hplaced
        rcases List.mem_append.mp ha with ha | ha
        · exact harms arm ha
        · rw [List.mem_singleton.mp ha]
          exact hblock
termination_by structural os => os

/-- Placing the blocks of an arm points at them. -/
theorem placeInArm_pointsAt (hnowhere : P .nowhere) : ∀ (os : List Outline) (column : Nat)
    (last : Option String) {d : Draft}, StandAt P (Outline.allOf os) → d.PointsAt P →
    (placeInArm os column last d).1.PointsAt P
  | [], _, _, _, _, h => h
  | o :: os, column, _, _, hP, h =>
    have ⟨ho, hos⟩ := allOf_cons hP
    placeInArm_pointsAt hnowhere os column _ hos (placeIcon_pointsAt hnowhere o column ho h)
termination_by structural os => os

end

/-! ## The icons of a root -/

/-- Finding the column of a lane remembers no span. -/
theorem PointsAt.laneColumn (h : d.PointsAt P) (lane : String) :
    (d.laneColumn lane).2.PointsAt P := by
  unfold Draft.laneColumn
  cases d.lanes.get? lane with
  | some column => exact h
  | none =>
    dsimp only
    split <;> exact h.of_same rfl rfl rfl rfl rfl

/-- A block that must not stand in a lane is reported where it stands. -/
theorem PointsAt.placeInLane (hnowhere : P .nowhere) (h : d.PointsAt P) (lane : String)
    (column : Nat) {o : Outline} (ho : StandAt P o.all) :
    (placeInLane lane column d o).PointsAt P := by
  unfold Draft.placeInLane
  split
  · exact h.report rfl (ho o (self_mem_all o))
  · exact placeIcon_pointsAt hnowhere o column ho h

/-- The outlines of several outlines. -/
theorem standAt_of_mem {os : List Outline} (h : StandAt P (Outline.allOf os)) {o : Outline}
    (ho : o ∈ os) : StandAt P o.all := by
  induction os with
  | nil => cases ho
  | cons x os ih =>
    obtain ⟨hx, hos⟩ := allOf_cons h
    rcases List.mem_cons.mp ho with rfl | ho
    · exact hx
    · exact ih hos ho

/-- Placing a block or a lane of the root points at the blocks inside it. -/
theorem PointsAt.placeRootBlock (hnowhere : P .nowhere) (h : d.PointsAt P) {o : Outline}
    (ho : StandAt P o.all) : (d.placeRootBlock o).PointsAt P := by
  obtain ⟨block, children, yes, no⟩ := o
  obtain ⟨-, hchildren, -, -⟩ := all_mk ho
  unfold Draft.placeRootBlock
  split
  · unfold Draft.placeLane
    exact List.foldlRecOn _ _ (h.laneColumn _) fun e he o ho =>
      he.placeInLane hnowhere _ _ (standAt_of_mem hchildren ho)
  · split
    · exact h
    · exact placeIcon_pointsAt hnowhere _ _ ho h

/-- An anchor that is claimed or made up has no span. -/
theorem PointsAt.claimAnchor (h : d.PointsAt P) (id : String) (fallback : Option String) :
    (d.claimAnchor id fallback).PointsAt P := by
  unfold Draft.claimAnchor
  split
  · exact h
  · split
    · exact h.claim _ _
    · exact (h.setAttribute _ _ _).claim _ _
    · exact h

/-- The start is remembered by its id. -/
theorem PointsAt.setStart (h : d.PointsAt P) (id : String) : (d.setStart id).PointsAt P :=
  (h.claim "start" id).of_same rfl rfl rfl rfl rfl

/-- A start that is made up stands nowhere; when it is refused, the block that has its id is pointed
at. -/
theorem PointsAt.addStart (hnowhere : P .nowhere) (h : d.PointsAt P) : d.addStart.PointsAt P := by
  unfold Draft.addStart
  split
  · rename_i node _
    have htitled : (d.titleStart node.id).PointsAt P := h.of_same rfl rfl rfl rfl rfl
    exact (htitled.claimAnchor _ _).setStart _
  · have hregistered := h.register d.startNode hnowhere .front
    dsimp only
    split
    · exact hregistered.setStart _
    · exact hregistered

/-- An end that is made up stands nowhere; when it is refused, the block that has its id is pointed
at. -/
theorem PointsAt.addEnd (hnowhere : P .nowhere) (h : d.PointsAt P) : d.addEnd.PointsAt P := by
  unfold Draft.addEnd
  split
  · have hregistered := h.register d.endNode hnowhere .back
    dsimp only
    split
    · exact hregistered.claim _ _
    · exact hregistered
  · exact List.foldlRecOn _ _ (h.claimAnchor _ _) fun e he id _ => he.claimAnchor id none

/-- The node of the parameters stands nowhere in the source. -/
theorem PointsAt.placeParameters (hnowhere : P .nowhere) (h : d.PointsAt P) (root : Block) :
    (d.placeParameters root).1.PointsAt P := by
  have henter : ∀ value start, (d.enterParameters value start).1.PointsAt P := fun value start => by
    unfold enterParameters openColumn
    dsimp only
    split
    · exact h.useColumn _
    · rename_i node hnode
      obtain ⟨-, -, hblock⟩ := parameters_node hnode
      have hspan : P node.block.span := hblock ▸ hnowhere
      have hregistered := (h.useColumn d.nextColumn).register _ hspan .back
      split
      · exact hregistered.claim "parameters" node.id
      · exact hregistered
  unfold Draft.placeParameters
  split
  · unfold addParameters
    split
    · exact h
    · exact h
    · exact henter _ _
  · exact h

/-- With all icons of a root in place the problems point at its blocks. -/
theorem placeRoot_pointsAt (hnowhere : P .nowhere) {root : Block}
    (hroot : StandAt P (Outline.allOf root.outline.children)) : (placeRoot root).1.PointsAt P := by
  have hinitial : (initial root).PointsAt P :=
    ⟨fun _ hp => absurd hp List.not_mem_nil, fun _ hp => absurd hp List.not_mem_nil,
      fun _ hp => absurd hp List.not_mem_nil, fun _ hp => absurd hp List.not_mem_nil,
      fun _ hp => absurd hp List.not_mem_nil⟩
  have hblocks : (root.outline.children.foldl Draft.placeRootBlock (initial root)).PointsAt P :=
    List.foldlRecOn _ _ hinitial fun d hd o ho =>
      hd.placeRootBlock hnowhere (standAt_of_mem hroot ho)
  exact ((hblocks.addStart hnowhere).placeParameters hnowhere root).addEnd hnowhere

/-! ## The edges of a root -/

/-- A reference that leads nowhere is reported where it is written. -/
theorem PointsAt.resolve (h : d.PointsAt P) (value : Option Value) (referrer : Referrer)
    {span : Span} (hspan : P span) : (d.resolve value referrer span).1.PointsAt P := by
  have hreport : ∀ fault, fault.first? = none → (d.report fault span).PointsAt P := fun fault hf =>
    h.report hf hspan
  unfold Draft.resolve
  split
  · exact hreport _ rfl
  · split
    · split
      · exact h
      · exact hreport _ rfl
    · split
      · split
        · dsimp only
          exact h.claim _ _
        · exact hreport _ rfl
      · dsimp only
        split
        · exact h
        · exact hreport _ rfl

/-- An attachment whose target leads nowhere is reported where it stands. -/
theorem PointsAt.attach (h : d.PointsAt P) {b : Block} (hb : P b.span) :
    (d.attach b).PointsAt P := by
  have hresolved := h.resolve (b.attributes.get? "target") .attachmentTarget hb
  unfold Draft.attach
  dsimp only
  split
  · exact hresolved
  · exact hresolved.of_same rfl rfl rfl rfl rfl

/-- A note whose pin leads nowhere is reported where it stands. -/
theorem PointsAt.addNote (h : d.PointsAt P) {b : Block} (hb : P b.span) :
    (d.addNote b).PointsAt P := by
  have hpin : (d.notePin b).1.PointsAt P := by
    unfold notePin
    split
    · exact h.resolve _ _ hb
    · exact h
  exact hpin.of_same rfl rfl rfl rfl rfl

/-- A line an end of which leads nowhere is reported where it stands. -/
theorem PointsAt.drawLine (h : d.PointsAt P) {b : Block} (hb : P b.span) :
    (d.drawLine b).PointsAt P := by
  have hresolved := (h.resolve (b.attributes.get? "from") .lineSource hb).resolve
    (b.attributes.get? "to") .lineTarget hb
  unfold Draft.drawLine
  dsimp only
  split
  · exact hresolved.of_same rfl rfl rfl rfl rfl
  · exact hresolved

/-- An edge that is drawn has no span. -/
theorem PointsAt.link (h : d.PointsAt P) (edge : Edge) (source target : String) :
    (d.link edge source target).PointsAt P := by
  unfold Draft.link
  split
  · exact h
  · exact h.of_same rfl rfl rfl rfl rfl

/-- The edge to the parameters has no span. -/
theorem PointsAt.linkParameters (h : d.PointsAt P) (edge : Option Edge) :
    (d.linkParameters edge).PointsAt P := by
  cases edge with
  | none => exact h
  | some edge => exact h.link _ _ _

/-- Looking up one target reports where it is written. -/
theorem pointsAt_resolveNext {looked : Lookup} (h : looked.1.PointsAt P)
    (referrer : String → Referrer) (id next : String) {span : Span} (hspan : P span) :
    (resolveNext referrer looked id next span).1.PointsAt P := by
  obtain ⟨d, targets⟩ := looked
  unfold resolveNext
  dsimp only
  exact PointsAt.resolve h _ _ hspan

/-- The targets of questions, choices and arms are looked up for the spans that are remembered. -/
theorem PointsAt.resolveTargets (h : d.PointsAt P) : d.resolveTargets.1.PointsAt P := by
  have hforks : (d.forks.foldl resolveFork (d, [])).1.PointsAt P := by
    refine List.foldlRecOn (motive := fun looked : Lookup => looked.1.PointsAt P) _ _ h
      fun looked hl p hp => ?_
    obtain ⟨id, fork⟩ := p
    unfold resolveFork
    dsimp only
    split
    · exact pointsAt_resolveNext hl _ _ _ (h.forks _ hp)
    · exact hl
  have hchoices : ∀ {e : Draft}, e.PointsAt P →
      (e.choiceNexts.foldl resolveChoice (e, [])).1.PointsAt P := fun he =>
    List.foldlRecOn (motive := fun looked : Lookup => looked.1.PointsAt P) _ _ he
      fun looked hl written hw => pointsAt_resolveNext hl _ _ _ (he.choiceNexts written hw)
  have harms : ∀ {e : Draft}, e.PointsAt P → (e.arms.foldl resolveArm (e, [])).1.PointsAt P := by
    intro e he
    refine List.foldlRecOn (motive := fun looked : Lookup => looked.1.PointsAt P) _ _ he
      fun looked hl arm ha => ?_
    unfold resolveArm
    split
    · exact pointsAt_resolveNext hl _ _ _ (he.arms arm ha)
    · exact hl
  exact harms (hchoices hforks)

/-- The edges down the columns have no spans. -/
theorem PointsAt.linkColumns (h : d.PointsAt P) : d.linkColumns.PointsAt P := by
  refine List.foldlRecOn _ _ h fun e he p _ => ?_
  unfold linkNeighbours
  dsimp only
  split
  · exact he
  · exact he.link _ _ _

/-- The edge behind a branch has no span. -/
theorem PointsAt.rejoin (h : d.PointsAt P) (last branch : String) (target : Reference) :
    (d.rejoin last branch target).PointsAt P := by
  unfold Draft.rejoin
  split
  · exact h
  · exact h.link _ _ _

/-- The edges of all questions have no spans. -/
theorem PointsAt.linkForks (h : d.PointsAt P) (targets : Targets) (default : Option Reference) :
    (d.linkForks targets default).PointsAt P := by
  refine List.foldlRecOn _ _ h fun e he p _ => ?_
  unfold linkQuestion
  dsimp only
  split
  · unfold linkFork
    dsimp only
    split
    · exact (he.link _ _ _).of_same rfl rfl rfl rfl rfl
    · exact (he.link _ _ _).rejoin _ _ _
  · exact he

/-- The edges of all arms have no spans. -/
theorem PointsAt.linkArms (h : d.PointsAt P) (targets : Targets) (default : Option Reference) :
    (d.linkArms targets default).PointsAt P := by
  refine List.foldlRecOn _ _ h fun e he arm _ => ?_
  unfold linkArm
  dsimp only
  split
  · exact he.link _ _ _
  · exact (he.link _ _ _).link _ _ _
  · exact (he.link _ _ _).rejoin _ _ _

/-- The last check reports what has no place. -/
theorem PointsAt.settleEdges (hnowhere : P .nowhere) (h : d.PointsAt P) :
    d.settleEdges.PointsAt P := by
  have hfaults : ∀ fault ∈ d.diagram.edges.flatMap d.danglingEnds, fault.first? = none := by
    intro fault hfault
    obtain ⟨edge, -, hedge⟩ := List.mem_flatMap.mp hfault
    unfold danglingEnds at hedge
    rcases List.mem_append.mp hedge with hedge | hedge <;> split at hedge <;>
      first | exact absurd hedge List.not_mem_nil | (rw [List.mem_singleton.mp hedge]; rfl)
  exact List.foldlRecOn _ _ (h.of_same rfl rfl rfl rfl rfl) fun e he fault hf =>
    he.report (hfaults fault hf) hnowhere

/-- Building the diagram of a root finds problems at the spans of its blocks only. -/
theorem ofRoot_pointsAt (hnowhere : P .nowhere) {root : Block}
    (hroot : StandAt P (Outline.allOf root.outline.children)) : (ofRoot root).PointsAt P := by
  have hblocks : ∀ name, ∀ b ∈ root.blocksCalled name, P b.span := fun name b hb => by
    have hmem : b.outline ∈ root.outline.children := by
      have houtlines : root.outline.children = Outline.ofStatements root.body := rfl
      rw [houtlines, outlines_eq]
      exact List.mem_map_of_mem (List.mem_of_mem_filter hb)
    exact standAt_of_mem hroot hmem b.outline (self_mem_all _)
  have hplaced := placeRoot_pointsAt hnowhere hroot
  unfold ofRoot
  generalize placeRoot root = placed at hplaced
  obtain ⟨d, edge⟩ := placed
  have hattached : ((root.blocksCalled "attach").foldl Draft.attach d).PointsAt P :=
    List.foldlRecOn _ _ hplaced fun e he b hb => he.attach (hblocks "attach" b hb)
  have hnoted := List.foldlRecOn (motive := PointsAt P) (root.blocksCalled "note") Draft.addNote
    hattached fun e he b hb => he.addNote (hblocks "note" b hb)
  have hparameters := hnoted.linkParameters edge
  have hlines := List.foldlRecOn (motive := PointsAt P) (root.blocksCalled "line") Draft.drawLine
    hparameters fun e he b hb => he.drawLine (hblocks "line" b hb)
  exact ((hlines.resolveTargets.linkColumns.linkForks _ _).linkArms _ _).settleEdges hnowhere

end Draft

end Flowchart
