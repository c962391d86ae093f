import Flowchart.Proofs.Draft.Trails

/-!
# The drafts that placing the icons of a root passes through

The icons of a root are those of its blocks and lanes, then the start icon, the parameters icon and
the end icon. `placeTrail` lists the drafts on the way and `placeRoot_passage` shows that they are a
passage. The edge that placing leaves over for later joins two nodes.
-/

namespace Flowchart.Draft

/-! ## The trails -/

/-- Finding the column of a lane. -/
def laneColumnTrail (d : Draft) (lane : String) : List Draft :=
  match d.lanes.get? lane with
  | some _ => []
  | none => [if d.lanes.isEmpty then d else d.openColumn.2, (d.laneColumn lane).2]

/-- Placing a block of a lane. -/
def inLaneTrail (lane : String) (column : Nat) (d : Draft) (o : Outline) : List Draft :=
  if isRootOnly o.block.name then [placeInLane lane column d o] else iconTrail o column d

/-- Placing the blocks of a lane. -/
def laneTrail (d : Draft) (lane : Outline) : List Draft :=
  let name := lane.block.label?.getD ("lane_" ++ toString (d.lanes.length + 1))
  let (column, opened) := d.laneColumn name
  d.laneColumnTrail name ++
    foldTrail (placeInLane name column) (inLaneTrail name column) lane.children opened

/-- Placing a block of the root. -/
def rootBlockTrail (d : Draft) (o : Outline) : List Draft :=
  if o.block.name = "lane" then d.laneTrail o
  else if isRootOnly o.block.name then []
  else iconTrail o primaryColumn d

/-- Claiming the anchor of a node. -/
def claimAnchorTrail (d : Draft) (id : String) (fallback : Option String) : List Draft :=
  match d.diagram.node? id with
  | none => []
  | some node =>
    match node.attributes.trimmed? "anchor", fallback with
    | some anchor, _ => [d.claim anchor id]
    | none, some anchor => [d.setAttribute id "anchor" (.text anchor), d.claimAnchor id fallback]
    | none, none => []

/-- Noting which icon the flow starts with. -/
def setStartTrail (d : Draft) (id : String) : List Draft := [d.claim "start" id, d.setStart id]

/-- Adding the start icon. -/
def startTrail (d : Draft) : List Draft :=
  match (d.diagram.ofKind .start).head? with
  | some node =>
    let titled := d.titleStart node.id
    [d.setLabel node.id d.diagram.title, titled] ++
      titled.claimAnchorTrail node.id (some d.startNode.id) ++
      (titled.claimAnchor node.id (some d.startNode.id)).setStartTrail node.id
  | none =>
    let (entered, isNew) := d.register d.startNode .front
    entered :: if isNew then entered.setStartTrail d.startNode.id else []

/-- Putting the parameters icon into a new column. -/
def enterParametersTrail (d : Draft) (value : Value) (start : String) : List Draft :=
  let (column, opened) := d.openColumn
  opened :: match Parameters.node? value opened.anchorBase column with
    | none => []
    | some node => [(opened.register node .back).1, (d.enterParameters value start).1]

/-- Adding the parameters icon. -/
def parametersTrail (d : Draft) (value : Value) : List Draft :=
  match value, d.start with
  | .null, _ => []
  | _, none => []
  | value, some start => d.enterParametersTrail value start

/-- Claiming the anchors of end icons. -/
def claimEndsTrail (d : Draft) (first : String) (others : List String) : List Draft :=
  d.claimAnchorTrail first (some d.endNode.id) ++
    foldTrail (fun d id => d.claimAnchor id none) (fun d id => d.claimAnchorTrail id none) others
      (d.claimAnchor first (some d.endNode.id))

/-- Adding the end icon. -/
def endTrail (d : Draft) : List Draft :=
  match (d.diagram.ofKind .finish).map Node.id with
  | [] => [(d.register d.endNode .back).1, d.addEnd]
  | first :: others => d.claimEndsTrail first others

/-- Adding the parameters icon that a root asks for. -/
def rootParametersTrail (d : Draft) (root : Block) : List Draft :=
  match root.attributes.get? "parameters" with
  | some value => d.parametersTrail value
  | none => []

/-- Placing all icons of a root block. -/
def placeTrail (root : Block) : List Draft :=
  let placed := root.outline.children.foldl placeRootBlock (initial root)
  foldTrail placeRootBlock rootBlockTrail root.outline.children (initial root) ++
    placed.startTrail ++ placed.addStart.rootParametersTrail root ++
    (placed.addStart.placeParameters root).1.endTrail

/-! ## The blocks of a root -/

/-- Finding the column of a lane. -/
theorem laneColumn_expands (P : Outline → Prop) (d : Draft) (lane : String) :
    Expands P d (d.laneColumnTrail lane) (d.laneColumn lane).2 := by
  unfold laneColumnTrail laneColumn
  cases d.lanes.get? lane with
  | some column => exact .done d
  | none =>
    dsimp only
    split
    · exact (Expands.stay d).trans (.nameLane _ _ _)
    · exact (Expands.useColumn d _).trans (.nameLane _ _ _)

/-- Placing a block of a lane. -/
theorem placeInLane_expands {P : Outline → Prop} (lane : String) (column : Nat) (d : Draft)
    {o : Outline} (hP : ∀ x ∈ o.all, P x) :
    Expands P d (inLaneTrail lane column d o) (placeInLane lane column d o) := by
  unfold inLaneTrail placeInLane
  split
  · exact .report _ _ _
  · exact placeIcon_expands o column d hP

/-- A loop over outlines expands them when every turn does. -/
theorem foldl_expands {P : Outline → Prop} {turn : Draft → Outline → Draft}
    {trail : Draft → Outline → List Draft}
    (hturn : ∀ d o, (∀ x ∈ o.all, P x) → Expands P d (trail d o) (turn d o)) (os : List Outline)
    (d : Draft) (hP : ∀ x ∈ Outline.allOf os, P x) :
    Expands P d (foldTrail turn trail os d) (os.foldl turn d) := by
  induction os generalizing d with
  | nil => exact .done d
  | cons o os ih =>
    obtain ⟨ho, hos⟩ := allOf_cons hP
    exact (hturn d o ho).trans (ih _ hos)

/-- Placing the blocks of a lane. -/
theorem placeLane_expands {P : Outline → Prop} (d : Draft) {lane : Outline}
    (hP : ∀ x ∈ Outline.allOf lane.children, P x) :
    Expands P d (d.laneTrail lane) (d.placeLane lane) := by
  unfold laneTrail placeLane
  dsimp only
  generalize lane.block.label?.getD _ = name
  exact (laneColumn_expands P d name).trans
    (foldl_expands (fun e _ => placeInLane_expands name _ e) _ _ hP)

/-- Placing a block of the root. -/
theorem placeRootBlock_expands {P : Outline → Prop} (d : Draft) {o : Outline}
    (hP : ∀ x ∈ o.all, P x) : Expands P d (d.rootBlockTrail o) (d.placeRootBlock o) := by
  unfold rootBlockTrail placeRootBlock
  split
  · obtain ⟨block, children, yes, no⟩ := o
    exact placeLane_expands d (all_mk hP).2.1
  · split
    · exact .done d
    · exact placeIcon_expands o primaryColumn d hP

/-- The draft with the blocks and lanes of a root, before icons are added that nobody wrote. -/
def written (root : Block) : Draft := root.outline.children.foldl placeRootBlock (initial root)

/-- The drafts that placing the blocks and lanes of a root passes through. -/
def writtenTrail (root : Block) : List Draft :=
  foldTrail placeRootBlock rootBlockTrail root.outline.children (initial root)

/-- Placing the blocks and lanes of a root expands the outlines below it. -/
theorem written_expands (root : Block) :
    Expands (· ∈ Outline.allOf root.outline.children) (initial root) (writtenTrail root)
      (written root) :=
  foldl_expands (fun d _ => placeRootBlock_expands d) _ _ fun _ ho => ho

/-! ## The icons that nobody wrote -/

/-- Claiming the anchor of a node. -/
theorem claimAnchor_passage {d : Draft} {id : String} (hid : d.hasNode id)
    (fallback : Option String) :
    Passage d (d.claimAnchorTrail id fallback) (d.claimAnchor id fallback) := by
  unfold claimAnchorTrail claimAnchor
  cases d.diagram.node? id with
  | none => exact .done d
  | some node =>
    dsimp only
    cases node.attributes.trimmed? "anchor" with
    | some anchor => exact (Step.claim anchor id hid).passage
    | none =>
      cases fallback with
      | some anchor =>
        have hset : d.Step (d.setAttribute id "anchor" (.text anchor)) := .setAttribute _ _ _
        exact .step hset (Step.claim anchor id (hset.extends.hasNode _ hid)).passage
      | none => exact .done d

/-- Noting which icon the flow starts with. -/
theorem setStart_passage {d : Draft} {id : String} (hid : d.hasNode id) :
    Passage d (d.setStartTrail id) (d.setStart id) := by
  have hclaim : d.Step (d.claim "start" id) := .claim _ _ hid
  exact .step hclaim (Step.setStart id (hclaim.extends.hasNode _ hid)).passage

/-- Adding the start icon. -/
theorem addStart_passage {d : Draft} (h : d.Registry) : Passage d d.startTrail d.addStart := by
  unfold startTrail addStart
  cases hhead : (d.diagram.ofKind .start).head? with
  | some node =>
    -- An icon of the kind that is already there gets the title and the names.
    have hid := h.hasNode_of_mem (List.mem_of_mem_filter (List.mem_of_head? hhead))
    have hlabel : d.Step (d.setLabel node.id d.diagram.title) := .setLabel _ _
    have htitle : Passage d _ (d.titleStart node.id) :=
      .step hlabel (Step.setAttribute node.id "text" _).passage
    have hanchor := htitle.append
      (claimAnchor_passage (htitle.extends.hasNode _ hid) (some d.startNode.id))
    exact hanchor.append (setStart_passage (hanchor.extends.hasNode _ hid))
  | none =>
    obtain ⟨hreg, hnode⟩ := register_registers d d.startNode .front
    dsimp only
    generalize d.register d.startNode .front = r at hreg hnode
    obtain ⟨entered, isNew⟩ := r
    cases isNew with
    | false => exact hreg.passage
    | true => exact .step hreg (setStart_passage (hnode rfl))

/-- Claiming the anchors of end icons. -/
theorem claimEnds_passage {d : Draft} {first : String} {others : List String}
    (hids : ∀ id ∈ first :: others, d.hasNode id) :
    Passage d (d.claimEndsTrail first others) (d.claimEnds first others) := by
  have hfirst := claimAnchor_passage (hids first List.mem_cons_self) (some d.endNode.id)
  have hextends : ∀ {e f : Draft} {t : List Draft}, Passage e t f → e.Extends d → f.Extends d :=
    fun hp hx => hp.extends.trans hx
  refine hfirst.append (foldl_passage_of_kept hextends others (fun e id hm hx => ?_) hfirst.extends)
  exact claimAnchor_passage (hx.hasNode _ (hids id (List.mem_cons_of_mem _ hm))) none

/-- Adding the end icon. -/
theorem addEnd_passage {d : Draft} (h : d.Registry) : Passage d d.endTrail d.addEnd := by
  have hends : ∀ id ∈ (d.diagram.ofKind .finish).map Node.id, d.hasNode id := by
    intro id hm
    obtain ⟨node, hnode, rfl⟩ := List.mem_map.mp hm
    exact h.hasNode_of_mem (List.mem_of_mem_filter hnode)
  unfold endTrail addEnd
  generalize (d.diagram.ofKind .finish).map Node.id = ids at hends
  cases ids with
  | cons first others => exact claimEnds_passage hends
  | nil =>
    obtain ⟨hreg, hnode⟩ := register_registers d d.endNode .back
    dsimp only
    generalize d.register d.endNode .back = r at hreg hnode
    obtain ⟨entered, isNew⟩ := r
    cases isNew with
    | false => exact .step hreg Step.stay.passage
    | true => exact .step hreg (Step.claim "end" _ (hnode rfl)).passage

/-- Putting the parameters icon into a new column is a passage, and the edge it gives joins two
nodes. -/
theorem enterParameters_passage {d : Draft} (value : Value) {start : String}
    (hs : d.hasNode start) :
    Passage d (d.enterParametersTrail value start) (d.enterParameters value start).1 ∧
      ∀ edge ∈ (d.enterParameters value start).2,
        (d.enterParameters value start).1.Joins edge edge.leaves edge.enters := by
  have hopen : d.Step d.openColumn.2 := .useColumn _
  unfold enterParametersTrail enterParameters
  generalize d.openColumn = o at hopen
  obtain ⟨column, opened⟩ := o
  dsimp only at hopen ⊢
  cases Parameters.node? value opened.anchorBase column with
  | none => exact ⟨hopen.passage, fun _ he => nomatch he⟩
  | some node =>
    dsimp only
    obtain ⟨hreg, hnode⟩ := register_registers opened node .back
    generalize opened.register node .back = r at hreg hnode
    obtain ⟨entered, isNew⟩ := r
    cases isNew with
    | false => exact ⟨.step hopen (.step hreg Step.stay.passage), fun _ he => nomatch he⟩
    | true =>
      have hclaim : entered.Step (entered.claim "parameters" node.id) := .claim _ _ (hnode rfl)
      have hp : Passage d _ _ := .step hopen (.step hreg hclaim.passage)
      refine ⟨hp, fun edge he => ?_⟩
      rw [← Option.mem_some_iff.mp he]
      exact ⟨hp.extends.hasNode _ hs, hclaim.extends.hasNode _ (hnode rfl), .inl rfl, .inl rfl⟩

/-- Adding the parameters icon is a passage, and the edge it gives joins two nodes. -/
theorem addParameters_passage {d : Draft} (h : d.Closed) (value : Value) :
    Passage d (d.parametersTrail value) (d.addParameters value).1 ∧
      ∀ edge ∈ (d.addParameters value).2,
        (d.addParameters value).1.Joins edge edge.leaves edge.enters := by
  unfold parametersTrail addParameters
  cases hs : d.start with
  | none => cases value <;> exact ⟨.done d, fun _ he => nomatch he⟩
  | some start =>
    have hstart := h.start start hs
    cases value with
    | null => exact ⟨.done d, fun _ he => nomatch he⟩
    | _ => exact enterParameters_passage _ hstart

/-- Adding the parameters icon that a root asks for. -/
theorem placeParameters_passage {d : Draft} (h : d.Closed) (root : Block) :
    Passage d (d.rootParametersTrail root) (d.placeParameters root).1 ∧
      ∀ edge ∈ (d.placeParameters root).2,
        (d.placeParameters root).1.Joins edge edge.leaves edge.enters := by
  unfold rootParametersTrail placeParameters
  cases root.attributes.get? "parameters" with
  | none => exact ⟨.done d, fun _ he => nomatch he⟩
  | some value => exact addParameters_passage h value

/-- Building starts with a closed draft. -/
theorem closed_initial (root : Block) : (initial root).Closed := closed_new _ _ _

/-- Placing all icons of a root block is a passage, and the edge it gives joins two nodes. -/
theorem placeRoot_passage (root : Block) :
    Passage (initial root) (placeTrail root) (placeRoot root).1 ∧
      ∀ edge ∈ (placeRoot root).2, (placeRoot root).1.Joins edge edge.leaves edge.enters := by
  have hplaced := (written_expands root).passage (closed_initial root).registry
  -- The start icon, the parameters icon and the end icon.
  have hstart := hplaced.append
    (addStart_passage (hplaced.registry (closed_initial root).registry))
  obtain ⟨hparameters, hedge⟩ := placeParameters_passage
    (hstart.closed_last (closed_initial root)) root
  have hall := hstart.append hparameters
  have hend := addEnd_passage (hall.registry (closed_initial root).registry)
  exact ⟨hall.append hend, fun edge he => (hedge edge he).mono hend.extends⟩

end Flowchart.Draft
