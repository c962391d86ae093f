import Flowchart.Proofs.Draft.Registry

/-!
# Every edge of a draft connects nodes

`Closed` extends the agreement of the tables to what edges are drawn from: the edges drawn so far,
the questions and arms whose edges are still to come, and the start icon, all lead to nodes. Every
operation keeps it (`Step.closed`).

In a closed draft the last check has nothing to do: `Closed.settleEdges` says that it changes no
edge and reports no fault.
-/

namespace Flowchart.Draft

/-- An edge has its two nodes noted, both are in use, and it names them. -/
def ClosedEdge (d : Draft) (e : Edge) : Prop :=
  ∃ source target, e.sourceNode = some source ∧ e.targetNode = some target ∧
    d.Joins e source target

/-- Everything that edges have been or will be drawn from leads to nodes. -/
structure Closed (d : Draft) : Prop where
  /-- Ids and names lead to nodes. -/
  registry : d.Registry
  /-- Both ends of every edge are nodes. -/
  edges : ∀ e ∈ d.diagram.edges, d.ClosedEdge e
  /-- The questions kept and the ends of their branches are nodes. -/
  forks : ∀ question fork, (question, fork) ∈ d.forks → d.KnowsFork question fork
  /-- The arms kept, their choices and their ends are nodes. -/
  arms : ∀ arm ∈ d.arms, d.KnowsArm arm
  /-- The start is a node. -/
  start : ∀ id ∈ d.start, d.hasNode id

/-! ## What stays known -/

/-- A question that is known stays so. -/
theorem KnowsFork.mono {d e : Draft} (hx : e.Extends d) {question : String} {fork : Fork}
    (h : d.KnowsFork question fork) : e.KnowsFork question fork :=
  ⟨hx.hasNode _ h.question, fun last hl => hx.hasNode _ (h.branchEnd last hl)⟩

/-- An arm that is known stays so. -/
theorem KnowsArm.mono {d e : Draft} (hx : e.Extends d) {arm : Arm} (h : d.KnowsArm arm) :
    e.KnowsArm arm :=
  ⟨hx.hasNode _ h.choice, hx.hasNode _ h.id, fun last hl => hx.hasNode _ (h.armEnd last hl)⟩

/-- The nodes of an edge stay nodes. -/
theorem Joins.mono {d e : Draft} (hx : e.Extends d) {edge : Edge} {source target : String}
    (h : d.Joins edge source target) : e.Joins edge source target :=
  ⟨hx.hasNode _ h.source_known, hx.hasNode _ h.target_known, h.source_named, h.target_named⟩

/-- A closed edge stays closed. -/
theorem ClosedEdge.mono {d e : Draft} (hx : e.Extends d) {edge : Edge} (h : d.ClosedEdge edge) :
    e.ClosedEdge edge := by
  obtain ⟨source, target, hs, ht, hj⟩ := h
  exact ⟨source, target, hs, ht, hj.mono hx⟩

/-- An edge with its nodes noted is closed when it names them and they are nodes. -/
theorem Joins.closedEdge {d : Draft} {edge : Edge} {source target : String}
    (h : d.Joins edge source target) : d.ClosedEdge (edge.settle source target) :=
  ⟨source, target, rfl, rfl, h.source_known, h.target_known, h.source_named, h.target_named⟩

/-- A draft that extends a closed one is closed when whatever is new in it leads to nodes. -/
theorem Closed.of_extends {d e : Draft} (h : d.Closed) (hx : e.Extends d) (registry : e.Registry)
    (edges : ∀ x ∈ e.diagram.edges, x ∈ d.diagram.edges ∨ e.ClosedEdge x)
    (forks : ∀ p ∈ e.forks, p ∈ d.forks ∨ e.KnowsFork p.1 p.2)
    (arms : ∀ arm ∈ e.arms, arm ∈ d.arms ∨ e.KnowsArm arm)
    (start : ∀ id ∈ e.start, id ∈ d.start ∨ e.hasNode id) : e.Closed where
  registry := registry
  edges x hm := (edges x hm).elim (fun hm => (h.edges x hm).mono hx) id
  forks question fork hm :=
    (forks (question, fork) hm).elim (fun hm => (h.forks question fork hm).mono hx) id
  arms arm hm := (arms arm hm).elim (fun hm => (h.arms arm hm).mono hx) id
  start i hm := (start i hm).elim (fun hm => hx.hasNode i (h.start i hm)) id

/-! ## The last check -/

/-- What stands before the first `@` need not be the id, but a closed edge has its nodes noted. -/
theorem ClosedEdge.settle_eq {d : Draft} {e : Edge} (h : d.ClosedEdge e) :
    e.settle e.leaves e.enters = e := by
  obtain ⟨source, target, hs, ht, -⟩ := h
  rw [Edge.settle, Edge.leaves, Edge.enters, hs, ht, Option.getD_some, Option.getD_some, ← hs, ← ht]

/-- A closed edge has no end that is no node. -/
theorem ClosedEdge.danglingEnds_eq {d : Draft} {e : Edge} (h : d.ClosedEdge e) :
    d.danglingEnds e = [] := by
  obtain ⟨source, target, hs, ht, hj⟩ := h
  rw [danglingEnds, Edge.leaves, Edge.enters, hs, ht, Option.getD_some, Option.getD_some,
    if_pos hj.source_known, if_pos hj.target_known, List.append_nil]

/-- The last check of a closed draft changes no edge and reports no fault. -/
theorem Closed.settleEdges {d : Draft} (h : d.Closed) : d.settleEdges = d := by
  -- No end is dangling, and noting the two nodes of an edge again changes nothing.
  have hfaults : d.diagram.edges.flatMap d.danglingEnds = [] :=
    List.flatMap_eq_nil_iff.mpr fun e he => (h.edges e he).danglingEnds_eq
  have hedges : d.diagram.edges.map (fun e => e.settle e.leaves e.enters) = d.diagram.edges := by
    rw [List.map_congr_left fun e he => (h.edges e he).settle_eq]
    exact List.map_id _
  rw [settleEdges_eq, hfaults, hedges, List.map_nil, List.append_nil]

/-! ## The operations keep it -/

/-- A new draft has nothing to draw edges from. -/
theorem closed_new (anchorBase title : String) (metadata : Attributes) :
    (Draft.new anchorBase title metadata).Closed where
  registry := registry_new anchorBase title metadata
  edges _ h := absurd h List.not_mem_nil
  forks _ _ h := absurd h List.not_mem_nil
  arms _ h := absurd h List.not_mem_nil
  start _ h := nomatch h

/-- Every operation keeps a draft closed. -/
theorem Step.closed {d e : Draft} (hs : d.Step e) (h : d.Closed) : e.Closed := by
  have hx := hs.extends
  have hr := hs.registry h.registry
  -- Only what an operation adds has to be looked at; the rest stays known.
  cases hs with
  | enter node p free =>
    obtain ⟨a, ha, he⟩ := enter_eq d node p
    rw [he] at hx hr ⊢
    exact h.of_extends hx hr (fun _ => .inl) (fun _ => .inl) (fun _ => .inl) (fun _ => .inl)
  | claim name id known =>
    obtain ⟨a, ha, he⟩ := claim_eq d name id
    rw [he] at hx hr ⊢
    exact h.of_extends hx hr (fun _ => .inl) (fun _ => .inl) (fun _ => .inl) (fun _ => .inl)
  | setStart id known =>
    refine h.of_extends hx hr (fun _ => .inl) (fun _ => .inl) (fun _ => .inl) fun i hi => ?_
    exact .inr (Option.mem_some_iff.mp hi ▸ known)
  | keepFork question fork known =>
    refine h.of_extends hx hr (fun _ => .inl) (fun p hp => ?_) (fun _ => .inl) (fun _ => .inl)
    rcases Table.mem_put hp with ⟨hq, hf⟩ | hp
    · rw [hq, hf]
      exact .inr (known.mono hx)
    · exact .inl hp
  | keepArms arms known =>
    refine h.of_extends hx hr (fun _ => .inl) (fun _ => .inl) (fun arm ha => ?_) (fun _ => .inl)
    exact (List.mem_append.mp ha).imp_right fun ha => (known arm ha).mono hx
  | connect edge source target joins =>
    refine h.of_extends hx hr (fun x hm => ?_) (fun _ => .inl) (fun _ => .inl) (fun _ => .inl)
    refine (List.mem_append.mp hm).imp_right fun hm => ?_
    exact List.mem_singleton.mp hm ▸ (joins.mono hx).closedEdge
  | link edge source target joins =>
    refine h.of_extends hx hr (fun x hm => ?_) (fun _ => .inl) (fun _ => .inl) (fun _ => .inl)
    refine (List.mem_append.mp hm).imp_right fun hm => ?_
    exact List.mem_singleton.mp hm ▸ (joins.mono hx).closedEdge
  | settle =>
    rw [h.settleEdges]
    exact h
  | _ => exact h.of_extends hx hr (fun _ => .inl) (fun _ => .inl) (fun _ => .inl) (fun _ => .inl)

end Flowchart.Draft
