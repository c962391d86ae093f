import Flowchart.Proofs.Draft.Plan

/-!
# Icons the author does not write leave the plan alone

Between the blocks of a root and its edges come the start, the parameters and the end icon. None of
them is a question, and adding them keeps and draws nothing: `Furnishes` says so of one operation
after the other, and so of all of them together.

The results are about the draft with all icons of a root. What is kept of questions and arms is as
planned (`placed_planned`). If there are no errors, every question is kept (`placed_answered`) and
there is an end icon (`placed_finish`).
-/

namespace Flowchart.Draft

/-- Operations lead from one draft to another that keep nothing for later, draw nothing and enter no
question; only a start icon becomes the start. -/
structure Furnishes (d e : Draft) : Prop where
  /-- The second draft is reached in steps. -/
  passage : ∃ trail, Passage d trail e
  /-- No question is kept. -/
  forks : e.forks = d.forks
  /-- No arm is kept. -/
  arms : e.arms = d.arms
  /-- No target of a choice is kept. -/
  choiceNexts : e.choiceNexts = d.choiceNexts
  /-- No edge is drawn. -/
  edges : e.diagram.edges = d.diagram.edges
  /-- No nodes are linked. -/
  linked : e.linked = d.linked
  /-- Only a start icon becomes the start. -/
  start : ∀ id ∈ e.start, id ∈ d.start ∨ e.HasKind id .start
  /-- No question is entered. -/
  questions : ∀ post ∈ e.diagram.posts, post.kind = .question → post ∈ d.diagram.posts

/-- Doing nothing furnishes a draft. -/
theorem Furnishes.refl (d : Draft) : Furnishes d d :=
  ⟨⟨_, .done d⟩, rfl, rfl, rfl, rfl, rfl, fun _ => .inl, fun _ hm _ => hm⟩

/-- What furnishes a draft twice does so at once. -/
theorem Furnishes.trans {d e f : Draft} (h : Furnishes d e) (k : Furnishes e f) :
    Furnishes d f := by
  obtain ⟨_, hp⟩ := h.passage
  obtain ⟨_, hq⟩ := k.passage
  refine ⟨⟨_, hp.append hq⟩, k.forks.trans h.forks, k.arms.trans h.arms,
    k.choiceNexts.trans h.choiceNexts, k.edges.trans h.edges, k.linked.trans h.linked,
    fun id hi => ?_, fun post hm hk => ?_⟩
  · rcases k.start id hi with hi | hi
    · exact (h.start id hi).imp_right fun hs => hs.mono hq.infix_posts
    · exact .inr hi
  · exact h.questions post (k.questions post hm hk) hk

/-- What has a kind keeps it. -/
theorem Furnishes.hasKind {d e : Draft} (h : Furnishes d e) {id : String} {kind : NodeKind}
    (hk : d.HasKind id kind) : e.HasKind id kind := by
  obtain ⟨_, hp⟩ := h.passage
  exact hk.mono hp.infix_posts

/-- A plan stays one. -/
theorem Furnishes.planned {d e : Draft} (h : Furnishes d e) (hd : d.Planned) : e.Planned := by
  obtain ⟨_, hp⟩ := h.passage
  exact hd.of_passage hp h.forks (fun _ ha => .inl (h.arms ▸ ha)) h.start h.edges h.linked

/-! ## One operation -/

/-- Noting a problem furnishes a draft. -/
theorem furnishes_report (d : Draft) (fault : BuildFault) (span : Span) :
    Furnishes d (d.report fault span) :=
  ⟨⟨_, (Step.report fault span).passage⟩, rfl, rfl, rfl, rfl, rfl, fun _ => .inl, fun _ hm _ => hm⟩

/-- Opening a column furnishes a draft. -/
theorem furnishes_useColumn (d : Draft) (column : Nat) : Furnishes d (d.useColumn column) :=
  ⟨⟨_, (Step.useColumn column).passage⟩, rfl, rfl, rfl, rfl, rfl, fun _ => .inl, fun _ hm _ => hm⟩

/-- Claiming a name of a known node furnishes a draft. -/
theorem furnishes_claim {d : Draft} (name : String) {id : String} (known : d.hasNode id) :
    Furnishes d (d.claim name id) := by
  have hs : d.Step (d.claim name id) := .claim name id known
  obtain ⟨a, -, he⟩ := claim_eq d name id
  rw [he] at hs ⊢
  exact ⟨⟨_, hs.passage⟩, rfl, rfl, rfl, rfl, rfl, fun _ => .inl, fun _ hm _ => hm⟩

/-- A change of a node that keeps its post. -/
theorem furnishes_setLabel (d : Draft) (id label : String) : Furnishes d (d.setLabel id label) :=
  ⟨⟨_, (Step.setLabel id label).passage⟩, rfl, rfl, rfl, rfl, rfl, fun _ => .inl,
    fun _ hm _ => posts_setLabel d id label ▸ hm⟩

/-- A change of a node that keeps its post. -/
theorem furnishes_setAttribute (d : Draft) (id key : String) (value : Value) :
    Furnishes d (d.setAttribute id key value) :=
  ⟨⟨_, (Step.setAttribute id key value).passage⟩, rfl, rfl, rfl, rfl, rfl, fun _ => .inl,
    fun _ hm _ => posts_setAttribute d id key value ▸ hm⟩

/-- Entering an icon that is no question. -/
theorem furnishes_enter {d : Draft} {node : Node} (p : Placement)
    (free : d.hasNode node.id = false) (plain : node.kind ≠ .question) :
    Furnishes d (d.enter node p) := by
  refine ⟨⟨_, (Step.enter node p free).passage⟩, forks_enter d node p, arms_enter d node p,
    choiceNexts_enter d node p, edges_enter d node p, linked_enter d node p,
    fun _ hi => .inl (start_enter d node p ▸ hi), fun post hm hk => ?_⟩
  refine (mem_posts_enter.mp hm).resolve_left fun heq => plain ?_
  rw [heq] at hk
  exact hk

/-- A start icon becomes the start. -/
theorem furnishes_setStart {d : Draft} {id : String} (hd : d.Registry) (hk : d.HasKind id .start) :
    Furnishes d (d.setStart id) := by
  have hclaim := furnishes_claim "start" (hk.hasNode hd)
  have hk' := hclaim.hasKind hk
  obtain ⟨_, hp⟩ := hclaim.passage
  have hs : (d.claim "start" id).Step (d.setStart id) :=
    .setStart id (hk'.hasNode (hp.registry hd))
  refine hclaim.trans ⟨⟨_, hs.passage⟩, rfl, rfl, rfl, rfl, rfl, fun i hi => ?_, fun _ hm _ => hm⟩
  rw [← Option.mem_some_iff.mp hi]
  exact .inr hk'

/-! ## The start, the parameters and the end icon -/

/-- Claiming the anchor of a node. -/
theorem furnishes_claimAnchor {d : Draft} {id : String} (hid : d.hasNode id)
    (fallback : Option String) : Furnishes d (d.claimAnchor id fallback) := by
  unfold claimAnchor
  split
  · exact .refl d
  · split
    · exact furnishes_claim _ hid
    · rename_i anchor _
      have hset := furnishes_setAttribute d id "anchor" (.text anchor)
      obtain ⟨_, hp⟩ := hset.passage
      exact hset.trans (furnishes_claim _ (hp.extends.hasNode _ hid))
    · exact .refl d

/-- Adding the start icon. -/
theorem furnishes_addStart {d : Draft} (hd : d.Registry) : Furnishes d d.addStart := by
  unfold addStart
  split
  · -- The icon that is there is of the kind.
    rename_i node hhead
    obtain ⟨hnode, hkind⟩ := List.mem_filter.mp (List.mem_of_head? hhead)
    have hk : d.HasKind node.id .start :=
      ⟨node.post, List.mem_map_of_mem hnode, rfl, of_decide_eq_true hkind⟩
    have htitle : Furnishes d (d.titleStart node.id) :=
      (furnishes_setLabel d _ _).trans (furnishes_setAttribute _ _ _ _)
    obtain ⟨_, hp⟩ := htitle.passage
    have hanchor := htitle.trans
      (furnishes_claimAnchor (hp.extends.hasNode _ (hk.hasNode hd)) (some d.startNode.id))
    obtain ⟨_, hq⟩ := hanchor.passage
    exact hanchor.trans (furnishes_setStart (hq.registry hd) (hanchor.hasKind hk))
  · dsimp only
    rcases register_cases d d.startNode .front with ⟨first, he, -⟩ | ⟨free, he⟩
    · rw [he]
      simp only [Bool.false_eq_true, if_false]
      exact furnishes_report d _ _
    · rw [he]
      simp only [if_true]
      have henter := furnishes_enter .front free (NodeKind.noConfusion : d.startNode.kind ≠ _)
      have hk := hasKind_enter d d.startNode .front
      exact henter.trans (furnishes_setStart (hd.enter _ .front free) hk)

/-- Claiming the anchors of several nodes. -/
theorem furnishes_claimAnchors (ids : List String) {d : Draft} (hids : ∀ id ∈ ids, d.hasNode id) :
    Furnishes d (ids.foldl (fun d id => d.claimAnchor id none) d) := by
  induction ids generalizing d with
  | nil => exact .refl d
  | cons id ids ih =>
    have hclaim := furnishes_claimAnchor (hids id List.mem_cons_self) none
    obtain ⟨_, hp⟩ := hclaim.passage
    exact hclaim.trans (ih fun i hm => hp.extends.hasNode _ (hids i (List.mem_cons_of_mem _ hm)))

/-- Claiming the anchors of end icons. -/
theorem furnishes_claimEnds {d : Draft} {first : String} {others : List String}
    (hids : ∀ id ∈ first :: others, d.hasNode id) : Furnishes d (d.claimEnds first others) := by
  have hfirst := furnishes_claimAnchor (hids first List.mem_cons_self) (some d.endNode.id)
  obtain ⟨_, hp⟩ := hfirst.passage
  exact hfirst.trans (furnishes_claimAnchors others fun id hm =>
    hp.extends.hasNode _ (hids id (List.mem_cons_of_mem _ hm)))

/-- Adding the end icon. -/
theorem furnishes_addEnd {d : Draft} (hd : d.Registry) : Furnishes d d.addEnd := by
  have hends : ∀ id ∈ (d.diagram.ofKind .finish).map Node.id, d.hasNode id := by
    intro id hm
    obtain ⟨node, hnode, rfl⟩ := List.mem_map.mp hm
    exact hd.hasNode_of_mem (List.mem_of_mem_filter hnode)
  unfold addEnd
  split
  · dsimp only
    rcases register_cases d d.endNode .back with ⟨first, he, -⟩ | ⟨free, he⟩
    · rw [he]
      simp only [Bool.false_eq_true, if_false]
      exact furnishes_report d _ _
    · rw [he]
      simp only [if_true]
      have henter := furnishes_enter .back free (NodeKind.noConfusion : d.endNode.kind ≠ _)
      exact henter.trans (furnishes_claim "end" (hasNode_enter hd free))
  · rename_i first others hfirst
    exact furnishes_claimEnds (hfirst ▸ hends)

/-- The edge that adding the parameters icon gives leaves the start icon. -/
structure LeavesStart (d : Draft) (edge : Edge) : Prop where
  /-- It leaves a start. -/
  leaves : d.HasKind edge.leaves .start
  /-- It is made up. -/
  unwritten : edge.isWritten = false

/-- The icon of a value, in the column it is made for. -/
theorem parameters_node {value : Value} {anchorBase : String} {column : Nat} {node : Node}
    (h : Parameters.node? value anchorBase column = some node) :
    node.kind = .parameters ∧ node.column = column ∧
      node.block = .synthetic "parameters" node.id := by
  unfold Parameters.node? at h
  cases value <;> cases h <;> exact ⟨rfl, rfl, rfl⟩

/-- What adding the parameters icon comes to: it is entered into a new column and there is an edge
to it, or the diagram stays as it is. -/
inductive AddsParameters (d : Draft) : Draft × Option Edge → Prop
  /-- There is no node for parameters, or its id is in use. -/
  | nothing {e : Draft} (diagram : e.diagram = d.diagram) (aliases : e.aliases = d.aliases) :
      AddsParameters d (e, none)
  /-- The node of the parameters is entered in a column of its own and claims its name. -/
  | icon {start : String} (started : d.start = some start) (node : Node)
      (free : d.hasNode node.id = false) (kind : node.kind = .parameters)
      (column : node.column = d.nextColumn) (block : node.block = .synthetic "parameters" node.id) :
      AddsParameters d (((d.useColumn d.nextColumn).enter node .back).claim "parameters" node.id,
        some ((parametersEdge start node.id).settle start node.id))

/-- Adding the parameters icon of a value. -/
theorem enterParameters_adds {d : Draft} (value : Value) {start : String}
    (started : d.start = some start) : d.AddsParameters (d.enterParameters value start) := by
  unfold enterParameters openColumn
  dsimp only
  split
  · exact .nothing rfl rfl
  · rename_i node hnode
    obtain ⟨hkind, hcolumn, hblock⟩ := parameters_node hnode
    rcases register_cases (d.useColumn d.nextColumn) node .back with ⟨first, he, -⟩ | ⟨free, he⟩
    · rw [he]
      exact .nothing rfl rfl
    · rw [he]
      dsimp only
      exact .icon started node free hkind hcolumn hblock

/-- Adding the parameters icon that a root asks for. -/
theorem placeParameters_adds (d : Draft) (root : Block) :
    d.AddsParameters (d.placeParameters root) := by
  unfold placeParameters
  cases root.attributes.get? "parameters" with
  | none => exact .nothing rfl rfl
  | some value =>
    unfold addParameters
    cases hs : d.start with
    | none => cases value <;> exact .nothing rfl rfl
    | some start =>
      cases value with
      | null => exact .nothing rfl rfl
      | _ => exact enterParameters_adds _ hs

/-- Putting the parameters icon into a new column. -/
theorem furnishes_enterParameters {d : Draft} (hd : d.Registry) (value : Value) {start : String}
    (hs : d.HasKind start .start) :
    Furnishes d (d.enterParameters value start).1 ∧
      ∀ edge ∈ (d.enterParameters value start).2, d.LeavesStart edge := by
  have hplain : ∀ value base column node, Parameters.node? value base column = some node →
      node.kind ≠ .question := by
    intro value base column node hnode
    unfold Parameters.node? at hnode
    cases value <;> cases hnode <;> exact NodeKind.noConfusion
  unfold enterParameters openColumn
  dsimp only
  have hopen := furnishes_useColumn d d.nextColumn
  split
  · exact ⟨hopen, fun _ he => nomatch he⟩
  · rename_i node hnode
    have hk := hplain _ _ _ _ hnode
    rcases register_cases (d.useColumn d.nextColumn) node .back with ⟨first, he, -⟩ | ⟨free, he⟩
    · rw [he]
      exact ⟨hopen.trans (furnishes_report _ _ _), fun _ he => nomatch he⟩
    · rw [he]
      dsimp only
      have hentered := hasNode_enter (hd.useColumn d.nextColumn) free
      refine ⟨(hopen.trans (furnishes_enter .back free hk)).trans
        (furnishes_claim "parameters" hentered), fun edge hedge => ?_⟩
      rw [← Option.mem_some_iff.mp hedge]
      exact ⟨hs, rfl⟩

/-- Adding the parameters icon that a root asks for. -/
theorem furnishes_placeParameters {d : Draft} (hd : d.Planned) (root : Block) :
    Furnishes d (d.placeParameters root).1 ∧
      ∀ edge ∈ (d.placeParameters root).2, d.LeavesStart edge := by
  have hnothing : Furnishes d d ∧ ∀ edge ∈ (none : Option Edge), d.LeavesStart edge :=
    ⟨.refl d, fun _ he => nomatch he⟩
  unfold placeParameters
  cases root.attributes.get? "parameters" with
  | none => exact hnothing
  | some value =>
    unfold addParameters
    cases hs : d.start with
    | none => cases value <;> exact hnothing
    | some start =>
      have hentered := fun value => furnishes_enterParameters hd.closed.registry value
        (hd.start start hs)
      cases value with
      | null => exact hnothing
      | _ => exact hentered _

/-! ## All icons of a root -/

/-- The start icon, the parameters icon and the end icon. -/
theorem placeRoot_furnishes (root : Block) :
    Furnishes (written root) (placeRoot root).1 ∧
      ∀ edge ∈ (placeRoot root).2, (placeRoot root).1.LeavesStart edge := by
  have hwritten := written_planned root
  have hstart := furnishes_addStart hwritten.closed.registry
  have hstarted := hstart.planned hwritten
  obtain ⟨hparameters, hedge⟩ := furnishes_placeParameters hstarted root
  have hend := furnishes_addEnd (hparameters.planned hstarted).closed.registry
  exact ⟨hstart.trans (hparameters.trans hend), fun edge he =>
    ⟨(hparameters.trans hend).hasKind (hedge edge he).leaves, (hedge edge he).unwritten⟩⟩

/-- The draft with all icons of a root has a plan. -/
theorem placed_planned (root : Block) : (placeRoot root).1.Planned :=
  (placeRoot_furnishes root).1.planned (written_planned root)

/-- In the draft with all icons of a root, all questions are kept unless there are errors. -/
theorem placed_answered {root : Block} (h : (placeRoot root).1.Clean) {id : String}
    (hk : (placeRoot root).1.HasKind id .question) : id ∈ (placeRoot root).1.forks.keys := by
  obtain ⟨hf, -⟩ := placeRoot_furnishes root
  obtain ⟨_, hp⟩ := hf.passage
  obtain ⟨post, hm, rfl, hk⟩ := hk
  rw [hf.forks]
  exact written_answered (hp.clean h) post (hf.questions post hm hk) hk

/-- Unless there are errors, adding the end icon leaves a draft with one. -/
theorem exists_finish_addEnd {d : Draft} (hd : d.Registry) (h : d.addEnd.Clean) :
    ∃ id, d.addEnd.HasKind id .finish := by
  have hf := furnishes_addEnd hd
  cases hends : (d.diagram.ofKind .finish).map Node.id with
  | cons first others =>
    -- There was one before.
    have hfirst : first ∈ (d.diagram.ofKind .finish).map Node.id := hends ▸ List.mem_cons_self
    obtain ⟨node, hnode, rfl⟩ := List.mem_map.mp hfirst
    obtain ⟨hnode, hkind⟩ := List.mem_filter.mp hnode
    have hk : d.HasKind node.id .finish :=
      ⟨node.post, List.mem_map_of_mem hnode, rfl, of_decide_eq_true hkind⟩
    exact ⟨node.id, hf.hasKind hk⟩
  | nil =>
    unfold addEnd at h ⊢
    rw [hends] at h ⊢
    dsimp only at h ⊢
    rcases register_cases d d.endNode .back with ⟨first, he, -⟩ | ⟨free, he⟩
    · rw [he] at h
      simp only [Bool.false_eq_true, if_false] at h
      exact absurd rfl (h _ List.mem_concat_self)
    · rw [he]
      simp only [if_true]
      have hentered := hasKind_enter d d.endNode .back
      have hclaim := furnishes_claim "end" (hasNode_enter hd free)
      exact ⟨d.endNode.id, hclaim.hasKind hentered⟩

/-- The draft with all icons of a root has an end icon unless there are errors. -/
theorem placed_finish {root : Block} (h : (placeRoot root).1.Clean) :
    ∃ id, (placeRoot root).1.HasKind id .finish := by
  have hwritten := written_planned root
  have hstarted := (furnishes_addStart hwritten.closed.registry).planned hwritten
  obtain ⟨hparameters, -⟩ := furnishes_placeParameters hstarted root
  exact exists_finish_addEnd (hparameters.planned hstarted).closed.registry h

end Flowchart.Draft
