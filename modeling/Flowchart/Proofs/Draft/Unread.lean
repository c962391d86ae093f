import Flowchart.Proofs.Draft.Ledger

/-!
# Problems are noted and never read

No operation on a draft looks at the problems that were noted before; it only puts its own behind
them. So whatever happens to a draft happens in the same way when more problems have been noted
earlier, and these stay in front (`Draft.behind`). This is shown for every function of the build, in
the order in which they use each other.
-/

namespace Flowchart.Draft

/-- A draft with more problems in front of its own. -/
def behind (earlier : List BuildProblem) (d : Draft) : Draft :=
  { d with problems := earlier ++ d.problems }

variable (earlier : List BuildProblem)

/-! ## Single operations -/

/-- A new problem goes behind all others, so those in front of them stay in front. -/
theorem report_behind (d : Draft) (fault : BuildFault) (span : Span) :
    (d.behind earlier).report fault span = (d.report fault span).behind earlier := by
  rw [report, report, behind, behind, List.append_assoc]

/-- The column of a lane depends on the lanes and the columns, and no problem is noted. -/
theorem laneColumn_behind (d : Draft) (lane : String) :
    (d.behind earlier).laneColumn lane = Prod.map id (behind earlier) (d.laneColumn lane) := by
  have hlanes : (d.behind earlier).lanes = d.lanes := rfl
  rw [laneColumn, laneColumn, hlanes]
  cases d.lanes.get? lane with
  | some column => rfl
  | none =>
    cases hempty : d.lanes.isEmpty with
    | true => rfl
    | false => rfl

/-- Whether a name can be claimed depends on the aliases. -/
theorem claim_behind (d : Draft) (name id : String) :
    (d.behind earlier).claim name id = (d.claim name id).behind earlier := by
  unfold claim
  cases Text.trimmed? name with
  | none => rfl
  | some name =>
    have haliases : (d.behind earlier).aliases = d.aliases := rfl
    dsimp only
    rw [haliases]
    split <;> rfl

/-- Several names are claimed one by one. -/
theorem claimAll_behind (d : Draft) (names : List String) (id : String) :
    (d.behind earlier).claimAll names id = (d.claimAll names id).behind earlier :=
  List.foldl_hom (behind earlier) fun d name => claim_behind earlier d name id

/-- Entering a node claims its names and notes no problem. -/
theorem enter_behind (d : Draft) (node : Node) (p : Placement) :
    (d.behind earlier).enter node p = (d.enter node p).behind earlier := by
  cases p with
  | back => rw [enter, enter, ← claimAll_behind]; rfl
  | front => rw [enter, enter, ← claimAll_behind]; rfl

/-- Whether a node is entered or refused depends on the ids, not on the problems. -/
theorem register_behind (d : Draft) (node : Node) (p : Placement) :
    (d.behind earlier).register node p = Prod.map (behind earlier) id (d.register node p) := by
  have hids : (d.behind earlier).ids = d.ids := rfl
  rw [register, register, hids]
  cases d.ids.get? node.id with
  | some first => exact congrArg (·, false) (report_behind earlier d _ _)
  | none => exact congrArg (·, true) (enter_behind earlier d node p)

/-! ## Icons -/

/-- The search for a free id asks the ids only. -/
theorem freeId_behind (d : Draft) (stem : String) (n tries : Nat) :
    (d.behind earlier).freeId stem n tries = d.freeId stem n tries := by
  induction tries generalizing n with
  | zero => rfl
  | succ tries ih => rw [freeId, freeId, ih]; rfl

/-- The node that closes a loop gets the same id, whatever problems there are. -/
theorem loopEndNode_behind (d : Draft) (loop : String) (column : Nat) :
    (d.behind earlier).loopEndNode loop column = d.loopEndNode loop column := by
  have hid : (d.behind earlier).loopEndId loop = d.loopEndId loop := by
    rw [loopEndId, loopEndId, freeId_behind]
    rfl
  rw [loopEndNode, loopEndNode, hid]

/-- Closing a loop notes its own problem, if any, behind the others. -/
theorem closeLoop_behind (d : Draft) (loop : String) (column : Nat) :
    (d.behind earlier).closeLoop loop column = (d.closeLoop loop column).behind earlier := by
  rw [closeLoop, closeLoop, loopEndNode_behind, register_behind]
  rfl

/-- The column of a branch is the one asked for or the next one; a column that cannot be used is a
problem behind the others. -/
theorem branchColumn_behind (d : Draft) (a : Answer) (attributes : Attributes) :
    (d.behind earlier).branchColumn a attributes =
      Prod.map id (behind earlier) (d.branchColumn a attributes) := by
  unfold branchColumn
  cases (attributes.get? "column").bind Value.number? with
  | none => rfl
  | some requested =>
    dsimp only
    cases (Decimal.Binary.ofFloat requested).whole? with
    | none => rfl
    | some column =>
      dsimp only
      split
      · rfl
      · rw [report_behind]
        rfl

/-- Closing a branch asks for the nodes of its column; an empty one is a problem behind the
others. -/
theorem closeBranch_behind (d : Draft) (a : Answer) (column before : Nat) :
    (d.behind earlier).closeBranch a column before =
      (d.closeBranch a column before).behind earlier := by
  have hids : (d.behind earlier).columnIds column = d.columnIds column := rfl
  rw [closeBranch, closeBranch, hids]
  cases (d.columnIds column).drop before with
  | nil => exact report_behind earlier d _ _
  | cons first rest =>
    have hedge : (d.behind earlier).hasEdge a.question first = d.hasEdge a.question first := rfl
    dsimp only
    rw [linkBranch, linkBranch, hedge]
    split <;> rfl

/-- The target of a choice is kept without looking at problems. -/
theorem keepChoiceNext_behind (d : Draft) (choice : String) (next : Option String) (span : Span) :
    (d.behind earlier).keepChoiceNext choice next span =
      (d.keepChoiceNext choice next span).behind earlier := by
  cases next <;> rfl

mutual

/-- Placing a block notes its problems behind the others. -/
theorem placeIcon_behind : ∀ (o : Outline) (column : Nat) (d : Draft),
    placeIcon o column (d.behind earlier) = Prod.map (behind earlier) id (placeIcon o column d)
  | .mk block children yes no, column, d => by
    have hids : (d.behind earlier).columnIds column = d.columnIds column := rfl
    rw [placeIcon, placeIcon]
    split
    · rw [report_behind]
      rfl
    · -- The id is the same, and whether it is in use.
      dsimp only
      rw [hids, register_behind]
      generalize d.register _ .back = registered
      obtain ⟨e, isNew⟩ := registered
      cases isNew with
      | false => rfl
      | true =>
        simp only [Prod.map_apply, id_eq, Bool.not_true, Bool.false_eq_true, if_false]
        refine congrArg (·, _) ?_
        -- What is placed with the icon starts from drafts with the same tables.
        cases NodeKind.ofName block.name with
        | question =>
          cases yes with
          | none =>
            cases no with
            | none => rfl
            | some n => exact placeBranch_behind n _ e
          | some y =>
            cases no with
            | none => exact placeBranch_behind y _ e
            | some n =>
              dsimp only
              split
              · exact report_behind earlier e _ _
              · split
                · rw [placeBranch_behind n, placeBranch_behind y]
                · rw [placeBranch_behind y, placeBranch_behind n]
        | choice =>
          dsimp only
          rw [keepChoiceNext_behind, placeArms_behind children]
          rfl
        | forEach =>
          dsimp only
          split
          · rfl
          · rw [placeAll_behind children, closeLoop_behind]
        | _ => rfl
termination_by structural o => o

/-- So does placing blocks one below the other. -/
theorem placeAll_behind : ∀ (os : List Outline) (column : Nat) (d : Draft),
    placeAll os column (d.behind earlier) = (placeAll os column d).behind earlier
  | [], _, _ => rfl
  | o :: os, column, d => by
    rw [placeAll, placeAll, placeIcon_behind o, Prod.map_fst]
    exact placeAll_behind os column (placeIcon o column d).1
termination_by structural os => os

/-- So does placing what an answer leads to. -/
theorem placeBranch_behind : ∀ (b : Branch) (a : Answer) (d : Draft),
    placeBranch b a (d.behind earlier) = (placeBranch b a d).behind earlier
  | .mk isWritten attributes icons, a, d => by
    rw [placeBranch, placeBranch]
    split
    · exact report_behind earlier d _ _
    · split
      · rfl
      · rw [branchColumn_behind]
        generalize d.branchColumn a attributes = opened
        obtain ⟨column, e⟩ := opened
        simp only [Prod.map_apply, id_eq]
        rw [placeInBranch_behind icons, closeBranch_behind]
        rfl
termination_by structural b => b

/-- So does placing the blocks of a branch. -/
theorem placeInBranch_behind : ∀ (os : List Outline) (a : Answer) (column : Nat) (d : Draft),
    placeInBranch os a column (d.behind earlier) = (placeInBranch os a column d).behind earlier
  | [], _, _, _ => rfl
  | o :: os, a, column, d => by
    rw [placeInBranch, placeInBranch, placeIcon_behind o, Prod.map_fst, report_behind]
    split
    · exact placeInBranch_behind os a column _
    · exact placeInBranch_behind os a column (placeIcon o column d).1
termination_by structural os => os

/-- So does placing the children of a choice; its arms are the same. -/
theorem placeArms_behind : ∀ (os : List Outline) (choice : String) (column : Nat) (isFirst : Bool)
    (arms : List Arm) (d : Draft), placeArms os choice column isFirst arms (d.behind earlier) =
      Prod.map (behind earlier) id (placeArms os choice column isFirst arms d)
  | [], _, _, _, _, _ => rfl
  | .mk block children yes no :: os, choice, column, isFirst, arms, d => by
    rw [placeArms, placeArms]
    cases ArmKind.ofName? block.name with
    | none =>
      dsimp only
      rw [placeIcon_behind (.mk block children yes no), Prod.map_fst]
      exact placeArms_behind os choice column false arms
        (placeIcon (.mk block children yes no) column d).1
    | some kind =>
      have hopened : (if isFirst then (column, d.behind earlier) else (d.behind earlier).openColumn) =
          Prod.map id (behind earlier) (if isFirst then (column, d) else d.openColumn) := by
        cases isFirst <;> rfl
      dsimp only
      rw [hopened]
      generalize (if isFirst then (column, d) else d.openColumn) = opened
      obtain ⟨armColumn, opened⟩ := opened
      simp only [Prod.map_apply, id_eq]
      rw [register_behind]
      generalize opened.register _ .back = registered
      obtain ⟨e, isNew⟩ := registered
      cases isNew with
      | false => exact placeArms_behind os choice column false arms e
      | true =>
        simp only [Prod.map_apply, id_eq, Bool.not_true, Bool.false_eq_true, if_false]
        rw [placeInArm_behind children]
        generalize placeInArm children armColumn none e = placed
        obtain ⟨f, armEnd⟩ := placed
        exact placeArms_behind os choice column false _ f
termination_by structural os => os

/-- So does placing the blocks of an arm; the last of them is the same. -/
theorem placeInArm_behind : ∀ (os : List Outline) (column : Nat) (last : Option String) (d : Draft),
    placeInArm os column last (d.behind earlier) =
      Prod.map (behind earlier) id (placeInArm os column last d)
  | [], _, _, _ => rfl
  | o :: os, column, last, d => by
    rw [placeInArm, placeInArm, placeIcon_behind o]
    generalize placeIcon o column d = placed
    obtain ⟨e, icon⟩ := placed
    exact placeInArm_behind os column _ e
termination_by structural os => os

end

/-- A block that must not stand in a lane is a problem behind the others. -/
theorem placeInLane_behind (lane : String) (column : Nat) (d : Draft) (o : Outline) :
    placeInLane lane column (d.behind earlier) o = (placeInLane lane column d o).behind earlier := by
  rw [placeInLane, placeInLane, placeIcon_behind, report_behind]
  split <;> rfl

/-- Placing a lane notes the problems of its blocks behind the others. -/
theorem placeLane_behind (d : Draft) (lane : Outline) :
    (d.behind earlier).placeLane lane = (d.placeLane lane).behind earlier := by
  have hlanes : (d.behind earlier).lanes = d.lanes := rfl
  rw [placeLane, placeLane, hlanes, laneColumn_behind]
  exact List.foldl_hom (behind earlier) fun d o => placeInLane_behind earlier _ _ d o

/-- Placing a block or a lane of the root notes its problems behind the others. -/
theorem placeRootBlock_behind (d : Draft) (o : Outline) :
    (d.behind earlier).placeRootBlock o = (d.placeRootBlock o).behind earlier := by
  rw [placeRootBlock, placeRootBlock, placeLane_behind, placeIcon_behind]
  split
  · rfl
  · split <;> rfl

/-! ## Icons the author does not write -/

/-- The anchor of a node is claimed or made up without looking at problems. -/
theorem claimAnchor_behind (d : Draft) (id : String) (fallback : Option String) :
    (d.behind earlier).claimAnchor id fallback = (d.claimAnchor id fallback).behind earlier := by
  have hnode : (d.behind earlier).diagram = d.diagram := rfl
  rw [claimAnchor, claimAnchor, hnode]
  cases d.diagram.node? id with
  | none => rfl
  | some node =>
    dsimp only
    cases node.attributes.trimmed? "anchor" with
    | some anchor => exact claim_behind earlier d anchor id
    | none =>
      cases fallback with
      | some anchor =>
        exact claim_behind earlier (d.setAttribute id "anchor" (.text anchor)) anchor id
      | none => rfl

/-- The start is remembered and its name claimed without looking at problems. -/
theorem setStart_behind (d : Draft) (id : String) :
    (d.behind earlier).setStart id = (d.setStart id).behind earlier := by
  rw [setStart, setStart, claim_behind]
  rfl

/-- A start whose id is in use is a problem behind the others. -/
theorem addStart_behind (d : Draft) :
    (d.behind earlier).addStart = d.addStart.behind earlier := by
  have hdiagram : (d.behind earlier).diagram = d.diagram := rfl
  have hnode : (d.behind earlier).startNode = d.startNode := rfl
  rw [addStart, addStart, hdiagram, hnode]
  cases (d.diagram.ofKind .start).head? with
  | some node =>
    have htitle : (d.behind earlier).titleStart node.id = (d.titleStart node.id).behind earlier := rfl
    dsimp only
    rw [htitle, claimAnchor_behind, setStart_behind]
  | none =>
    dsimp only
    rw [register_behind]
    generalize d.register d.startNode .front = registered
    obtain ⟨e, isNew⟩ := registered
    cases isNew with
    | false => rfl
    | true => exact setStart_behind earlier e _

/-- An end whose id is in use is a problem behind the others. -/
theorem addEnd_behind (d : Draft) : (d.behind earlier).addEnd = d.addEnd.behind earlier := by
  have hdiagram : (d.behind earlier).diagram = d.diagram := rfl
  have hnode : (d.behind earlier).endNode = d.endNode := rfl
  rw [addEnd, addEnd, hdiagram, hnode]
  cases (d.diagram.ofKind .finish).map Node.id with
  | nil =>
    dsimp only
    rw [register_behind]
    generalize d.register d.endNode .back = registered
    obtain ⟨e, isNew⟩ := registered
    cases isNew with
    | false => rfl
    | true => exact claim_behind earlier e "end" _
  | cons first others =>
    dsimp only
    rw [claimEnds, claimEnds, claimAnchor_behind, hnode]
    exact List.foldl_hom (behind earlier) fun d id => claimAnchor_behind earlier d id none

/-- Parameters whose id is in use are a problem behind the others. -/
theorem placeParameters_behind (d : Draft) (root : Block) :
    (d.behind earlier).placeParameters root =
      Prod.map (behind earlier) id (d.placeParameters root) := by
  have henter : ∀ value start, (d.behind earlier).enterParameters value start =
      Prod.map (behind earlier) id (d.enterParameters value start) := by
    intro value start
    have hopen : (d.behind earlier).openColumn = Prod.map id (behind earlier) d.openColumn := rfl
    rw [enterParameters, enterParameters, hopen]
    generalize d.openColumn = opened
    obtain ⟨column, opened⟩ := opened
    have hbase : (opened.behind earlier).anchorBase = opened.anchorBase := rfl
    simp only [Prod.map_apply, id_eq]
    rw [hbase]
    -- The icon and its id come of the value and the root alone.
    cases Parameters.node? value opened.anchorBase column with
    | none => rfl
    | some node =>
      dsimp only
      rw [register_behind]
      generalize opened.register node .back = registered
      obtain ⟨e, isNew⟩ := registered
      cases isNew with
      | false => rfl
      | true => exact congrArg (·, _) (claim_behind earlier e "parameters" node.id)
  have hstart : (d.behind earlier).start = d.start := rfl
  rw [placeParameters, placeParameters]
  cases root.attributes.get? "parameters" with
  | none => rfl
  | some value =>
    dsimp only
    unfold addParameters
    rw [hstart]
    -- Nothing is added without a start icon or a value.
    cases d.start with
    | none => cases value <;> rfl
    | some start =>
      cases value with
      | null => rfl
      | _ => exact henter _ start

/-! ## References, attachments and notes -/

/-- A reference resolves to the same; when it leads nowhere, this is a problem behind the others. -/
theorem resolve_behind (d : Draft) (value : Option Value) (referrer : Referrer) (span : Span) :
    (d.behind earlier).resolve value referrer span =
      Prod.map (behind earlier) id (d.resolve value referrer span) := by
  have haliases : (d.behind earlier).aliases = d.aliases := rfl
  have hnode : (d.behind earlier).hasNode = d.hasNode := rfl
  rw [resolve, resolve, haliases, hnode]
  simp only [report_behind, claim_behind]
  cases value.bind Value.trimmed? with
  | none => rfl
  | some name =>
    dsimp only
    cases d.aliases.get? name with
    | some id => dsimp only; split <;> rfl
    | none =>
      dsimp only
      cases Text.splitOnce '@' name.toList with
      | none => dsimp only; split <;> rfl
      | some parts => dsimp only; split <;> rfl

/-- An attachment is taken in or its target is a problem behind the others. -/
theorem attach_behind (d : Draft) (b : Block) :
    (d.behind earlier).attach b = (d.attach b).behind earlier := by
  rw [attach, attach, resolve_behind]
  generalize d.resolve _ _ _ = looked
  obtain ⟨e, target⟩ := looked
  cases target <;> rfl

/-- A note is taken in either way; a pin that leads nowhere is a problem behind the others. -/
theorem addNote_behind (d : Draft) (b : Block) :
    (d.behind earlier).addNote b = (d.addNote b).behind earlier := by
  have hpin : (d.behind earlier).notePin b = Prod.map (behind earlier) id (d.notePin b) := by
    unfold notePin
    split
    · exact resolve_behind earlier d _ _ _
    · rfl
  rw [addNote, addNote, hpin]
  rfl

/-! ## Edges -/

/-- A line is drawn or its ends are problems behind the others. -/
theorem drawLine_behind (d : Draft) (b : Block) :
    (d.behind earlier).drawLine b = (d.drawLine b).behind earlier := by
  rw [drawLine, drawLine, resolve_behind]
  generalize d.resolve _ _ _ = looked
  obtain ⟨e, source⟩ := looked
  simp only [Prod.map_apply, id_eq]
  rw [resolve_behind]
  generalize e.resolve _ _ _ = looked
  obtain ⟨f, target⟩ := looked
  cases source with
  | none => rfl
  | some source => cases target <;> rfl

/-- Whether two nodes are already linked depends on the edges. -/
theorem link_behind (d : Draft) (edge : Edge) (source target : String) :
    (d.behind earlier).link edge source target = (d.link edge source target).behind earlier := by
  have hlinked : (d.behind earlier).linked = d.linked := rfl
  rw [link, link, hlinked]
  split <;> rfl

/-- The edge to the parameters is drawn without looking at problems. -/
theorem linkParameters_behind (d : Draft) (edge : Option Edge) :
    (d.behind earlier).linkParameters edge = (d.linkParameters edge).behind earlier := by
  cases edge with
  | none => rfl
  | some edge => exact link_behind earlier d edge _ _

/-- What has been looked up, with more problems in front. -/
def Lookup.behind (looked : Lookup) : Lookup := (looked.1.behind earlier, looked.2)

/-- Looking up one target notes its problem behind the others and keeps the same target. -/
theorem resolveNext_behind (referrer : String → Referrer) (looked : Lookup) (source next : String)
    (span : Span) : resolveNext referrer (Lookup.behind earlier looked) source next span =
      Lookup.behind earlier (resolveNext referrer looked source next span) := by
  obtain ⟨d, targets⟩ := looked
  rw [Lookup.behind, resolveNext, resolveNext]
  dsimp only
  rw [resolve_behind]
  generalize d.resolve (some (.text next)) (referrer source) span = found
  obtain ⟨e, reference⟩ := found
  rfl

/-- So does looking up the target of a question. -/
theorem resolveFork_behind (looked : Lookup) (p : String × Fork) :
    resolveFork (Lookup.behind earlier looked) p = Lookup.behind earlier (resolveFork looked p) := by
  obtain ⟨question, fork⟩ := p
  unfold resolveFork
  dsimp only
  cases fork.next with
  | none => rfl
  | some next => exact resolveNext_behind earlier .questionNext looked question next fork.span

/-- So does looking up the target of a choice. -/
theorem resolveChoice_behind (looked : Lookup) (written : ChoiceNext) :
    resolveChoice (Lookup.behind earlier looked) written =
      Lookup.behind earlier (resolveChoice looked written) :=
  resolveNext_behind earlier .choiceNext looked written.choice written.next written.span

/-- So does looking up the target of an arm. -/
theorem resolveArm_behind (looked : Lookup) (arm : Arm) :
    resolveArm (Lookup.behind earlier looked) arm =
      Lookup.behind earlier (resolveArm looked arm) := by
  unfold resolveArm
  cases arm.next with
  | none => rfl
  | some next => exact resolveNext_behind earlier .armNext looked arm.id next arm.span

/-- Looking up several targets, one after the other. -/
theorem foldl_lookup_behind {α : Type} {turn : Lookup → α → Lookup}
    (hturn : ∀ looked a, turn (Lookup.behind earlier looked) a =
      Lookup.behind earlier (turn looked a))
    (as : List α) (d : Draft) : as.foldl turn (d.behind earlier, []) =
      ((as.foldl turn (d, [])).1.behind earlier, (as.foldl turn (d, [])).2) :=
  (List.foldl_hom (Lookup.behind earlier) hturn :
    as.foldl turn (Lookup.behind earlier (d, [])) = Lookup.behind earlier (as.foldl turn (d, [])))

/-- All targets that are looked up are the same, and their problems go behind the others. -/
theorem resolveTargets_behind (d : Draft) : (d.behind earlier).resolveTargets =
    (d.resolveTargets.1.behind earlier, d.resolveTargets.2) := by
  have hforks : ∀ d : Draft, (d.behind earlier).forks = d.forks := fun _ => rfl
  have hchoices : ∀ d : Draft, (d.behind earlier).choiceNexts = d.choiceNexts := fun _ => rfl
  have harms : ∀ d : Draft, (d.behind earlier).arms = d.arms := fun _ => rfl
  rw [resolveTargets, resolveTargets, hforks, foldl_lookup_behind earlier (resolveFork_behind earlier)]
  dsimp only
  rw [hchoices, foldl_lookup_behind earlier (resolveChoice_behind earlier)]
  dsimp only
  rw [harms, foldl_lookup_behind earlier (resolveArm_behind earlier)]

/-- The edges down the columns depend on the nodes. -/
theorem linkColumns_behind (d : Draft) :
    (d.behind earlier).linkColumns = d.linkColumns.behind earlier := by
  have hpairs : (d.behind earlier).columnPairs = d.columnPairs := rfl
  rw [linkColumns, linkColumns, hpairs]
  refine List.foldl_hom (behind earlier) fun d ⟨source, target⟩ => ?_
  have hbranching : (d.behind earlier).isBranching source = d.isBranching source := rfl
  rw [linkNeighbours, linkNeighbours, hbranching, link_behind]
  split <;> rfl

/-- Where a branch rejoins depends on its last node and the target. -/
theorem rejoin_behind (d : Draft) (last branch : String) (target : Reference) :
    (d.behind earlier).rejoin last branch target = (d.rejoin last branch target).behind earlier := by
  rw [rejoin, rejoin, link_behind]
  split <;> rfl

/-- The edges behind branches depend on the questions kept and on the targets. -/
theorem linkForks_behind (d : Draft) (targets : Targets) (default : Option Reference) :
    (d.behind earlier).linkForks targets default =
      (d.linkForks targets default).behind earlier := by
  refine List.foldl_hom (behind earlier) fun d ⟨question, fork⟩ => ?_
  rw [linkQuestion, linkQuestion]
  cases targets.ofFork default question with
  | none => rfl
  | some target =>
    dsimp only
    unfold linkFork
    rw [linkMain, linkMain, link_behind]
    cases fork.branchEnd with
    | none => rfl
    | some last => exact rejoin_behind earlier _ last _ target

/-- The edges of choices depend on the arms kept and on the targets. -/
theorem linkArms_behind (d : Draft) (targets : Targets) (default : Option Reference) :
    (d.behind earlier).linkArms targets default = (d.linkArms targets default).behind earlier := by
  refine List.foldl_hom (behind earlier) fun d arm => ?_
  unfold linkArm
  rw [linkHead, linkHead, link_behind]
  cases targets.ofArm default arm with
  | none => rfl
  | some target =>
    cases arm.armEnd with
    | none => exact link_behind earlier _ _ _ _
    | some last => exact rejoin_behind earlier _ last _ target

/-- An edge is settled by the ids of the nodes; a missing end is a problem behind the others. -/
theorem settleEdges_behind (d : Draft) :
    (d.behind earlier).settleEdges = d.settleEdges.behind earlier := by
  have hends : (d.behind earlier).danglingEnds = d.danglingEnds := rfl
  rw [settleEdges_eq, settleEdges_eq, hends]
  rw [behind, behind, List.append_assoc]

/-- Drawing the edges that are made up notes its problems behind the others. -/
theorem flowed_behind (d : Draft) : (d.behind earlier).flowed = d.flowed.behind earlier := by
  have hdefault : ∀ d : Draft, (d.behind earlier).defaultTarget = d.defaultTarget := fun _ => rfl
  rw [flowed, flowed, resolveTargets_behind]
  dsimp only
  rw [linkColumns_behind, hdefault, linkForks_behind, linkArms_behind]

/-- Drawing all edges of a root notes its problems behind the others. -/
theorem connectRoot_behind (d : Draft) (root : Block) (edge : Option Edge) :
    (d.behind earlier).connectRoot root edge = (d.connectRoot root edge).behind earlier := by
  have hattach : ∀ (bs : List Block) (d : Draft),
      bs.foldl attach (d.behind earlier) = (bs.foldl attach d).behind earlier := fun _ _ =>
    List.foldl_hom (behind earlier) (attach_behind earlier)
  have hnote : ∀ (bs : List Block) (d : Draft),
      bs.foldl addNote (d.behind earlier) = (bs.foldl addNote d).behind earlier := fun _ _ =>
    List.foldl_hom (behind earlier) (addNote_behind earlier)
  have hline : ∀ (bs : List Block) (d : Draft),
      bs.foldl drawLine (d.behind earlier) = (bs.foldl drawLine d).behind earlier := fun _ _ =>
    List.foldl_hom (behind earlier) (drawLine_behind earlier)
  have hconnect : ∀ d : Draft, d.connectRoot root edge = (d.decorated root edge).flowed.settleEdges :=
    fun _ => rfl
  rw [hconnect, hconnect, decorated, decorated]
  rw [hattach, hnote, linkParameters_behind, hline, flowed_behind, settleEdges_behind]

end Flowchart.Draft
