import Flowchart.Proofs.Draft.Connecting

/-!
# The drafts of a build

`contexts` lists every draft that building the diagram of a document goes through, from the one
without nodes to the one whose diagram is the result. Each of them comes from the one before by an
operation (`contexts_isChain`), so every one of them is closed.

`build_closed` is the result for edges: every edge of a built diagram connects two of its nodes, and
at no time would the last check find anything to do. The result for the tables is
`contexts_registry`: the ids, the columns and the claimed names agree with the nodes at any time, a
claimed name is never taken away from its node, and a column that is opened is greater than all the
columns there have been.
-/

namespace Flowchart

namespace Draft

/-- The drafts that building a root block goes through after the first one. -/
def rootTrail (root : Block) : List Draft :=
  let (placed, parametersEdge) := placeRoot root
  placeTrail root ++ placed.connectTrail root parametersEdge

/-- Building a root block is a passage. -/
theorem ofRoot_passage (root : Block) :
    Passage (initial root) (rootTrail root) (ofRoot root) := by
  obtain ⟨hplace, hedge⟩ := placeRoot_passage root
  exact hplace.append (connectRoot_passage (hplace.closed_last (closed_initial root)) root hedge)

end Draft

/-- The drafts that building the diagram of a document goes through. -/
def contexts (document : List Statement) : List Draft :=
  match rootBlock? document with
  | none => []
  | some root => Draft.initial root :: Draft.rootTrail root

/-- The last draft is the one that building gives the diagram and the problems of. -/
theorem build_eq_getLast? (document : List Statement) (diagram : Diagram)
    (problems : List BuildProblem) (h : Diagram.build document = (some diagram, problems)) :
    ∃ d, (contexts document).getLast? = some d ∧ d.diagram = diagram ∧ d.problems = problems := by
  unfold Diagram.build at h
  unfold contexts
  cases hroot : rootBlock? document with
  | none =>
    rw [hroot] at h
    exact nomatch h
  | some root =>
    rw [hroot] at h
    obtain ⟨hdiagram, hproblems⟩ := Prod.mk.inj h
    exact ⟨Draft.ofRoot root, (Draft.ofRoot_passage root).getLast?_eq, Option.some.inj hdiagram,
      hproblems⟩

/-- Each draft of a build comes from the one before by an operation. -/
theorem contexts_isChain (document : List Statement) : (contexts document).IsChain Draft.Step := by
  unfold contexts
  split
  · exact List.isChain_nil
  · rename_i root _
    exact (Draft.ofRoot_passage root).isChain

/-- Every draft of a build is closed. -/
theorem closed_of_mem_contexts {document : List Statement} {d : Draft}
    (hd : d ∈ contexts document) : d.Closed := by
  unfold contexts at hd
  split at hd
  · exact absurd hd List.not_mem_nil
  · rename_i root _
    exact (Draft.ofRoot_passage root).closed (Draft.closed_initial root) d hd

/-- Later drafts of a build extend earlier ones. -/
theorem contexts_pairwise_extends (document : List Statement) :
    (contexts document).Pairwise fun earlier later => later.Extends earlier := by
  unfold contexts
  split
  · exact List.Pairwise.nil
  · rename_i root _
    exact (Draft.ofRoot_passage root).pairwise_extends

/-! ## Edges -/

/-- Every edge of a built diagram has its two nodes noted, they are nodes of the diagram, and its
texts name them. Throughout the build, the last check would change no edge and report nothing. -/
theorem build_closed (document : List Statement) :
    (∀ diagram, (Diagram.build document).1 = some diagram → ∀ e ∈ diagram.edges,
      ∃ source ∈ diagram.nodes.map Node.id, ∃ target ∈ diagram.nodes.map Node.id,
        e.sourceNode = some source ∧ e.targetNode = some target ∧
          NamesNode e.source source ∧ NamesNode e.target target) ∧
      ∀ d ∈ contexts document, d.settleEdges = d := by
  constructor
  · -- The diagram is that of the last draft, which is closed.
    intro diagram h e he
    obtain ⟨d, hlast, rfl, -⟩ := build_eq_getLast? document diagram (Diagram.build document).2
      (Prod.ext h rfl)
    have hclosed := closed_of_mem_contexts (List.mem_of_getLast? hlast)
    obtain ⟨source, target, hs, ht, hj⟩ := hclosed.edges e he
    exact ⟨source, hclosed.registry.hasNode_iff_mem.mp hj.source_known,
      target, hclosed.registry.hasNode_iff_mem.mp hj.target_known,
      hs, ht, hj.source_named, hj.target_named⟩
  · intro d hd
    exact (closed_of_mem_contexts hd).settleEdges

/-- A root with one icon and a line to an anchor of it. -/
def lineDocument : List Statement :=
  [.block "drakon" ["flow"]
    [.block "action" ["a"] [] .nowhere,
      .block "line" []
        [.attribute "from" (.text "start") .nowhere, .attribute "to" (.text "a@in") .nowhere]
        .nowhere]
    .nowhere]

/-- The line and the edge below it, each between two nodes of the diagram. -/
theorem build_closed_line :
    ∃ diagram, (Diagram.build lineDocument).1 = some diagram ∧
      diagram.edges.map (fun e => (e.source, e.target)) =
        [("flow@start", "a@in"), ("a", "flow@end")] ∧
      (∀ e ∈ diagram.edges, ∃ source ∈ diagram.nodes.map Node.id,
        ∃ target ∈ diagram.nodes.map Node.id,
          e.sourceNode = some source ∧ e.targetNode = some target ∧
            NamesNode e.source source ∧ NamesNode e.target target) ∧
      ∀ d ∈ contexts lineDocument, d.settleEdges = d :=
  ⟨_, rfl, by decide +kernel, (build_closed lineDocument).1 _ rfl, (build_closed lineDocument).2⟩

/-! ## Tables -/

/-- At any time of a build the tables of the draft agree with its nodes, every node is in exactly
one column, and a column that is opened is greater than all others. Later on, a claimed name still
leads to the same node, and a column that is opened is greater than those that were there before. -/
theorem contexts_registry (document : List Statement) :
    (∀ d ∈ contexts document, d.Registry ∧
      (∀ n ∈ d.diagram.nodes, ∀ c, n.id ∈ d.columnIds c ↔ c = n.column) ∧
      ∀ c ∈ d.columns.keys, c < d.openColumn.1) ∧
    (contexts document).Pairwise fun earlier later =>
      (∀ name id, earlier.aliases.get? name = some id → later.aliases.get? name = some id) ∧
      ∀ c ∈ earlier.columns.keys, c < later.openColumn.1 := by
  have hregistry : ∀ d ∈ contexts document, d.Registry := fun d hd =>
    (closed_of_mem_contexts hd).registry
  constructor
  · intro d hd
    have h := hregistry d hd
    exact ⟨h, fun n hn => h.mem_columnIds_iff hn, h.lt_nextColumn⟩
  · -- A later draft has the columns of an earlier one, and its next column is greater than them.
    refine (contexts_pairwise_extends document).imp_of_mem fun {earlier later} _ hlater hx => ?_
    exact ⟨hx.aliases, fun c hc => (hregistry later hlater).lt_nextColumn c (hx.columns c hc)⟩

/-- In the last draft of a build the start icon keeps its name, and the next column is new. -/
theorem contexts_registry_line :
    ∃ d, (contexts lineDocument).getLast? = some d ∧
      d.aliases.get? "start" = some "flow@start" ∧ d.openColumn.1 = 1 ∧ d.Registry ∧
      (∀ n ∈ d.diagram.nodes, ∀ c, n.id ∈ d.columnIds c ↔ c = n.column) ∧
      ∀ c ∈ d.columns.keys, c < d.openColumn.1 := by
  obtain ⟨d, hlast, -, -⟩ := build_eq_getLast? lineDocument _ _ rfl
  have halias : ((contexts lineDocument).getLast?.bind fun d => d.aliases.get? "start") =
      some "flow@start" := by decide +kernel
  have hopen : ((contexts lineDocument).getLast?.map fun d => d.openColumn.1) = some 1 := by
    decide +kernel
  rw [hlast] at halias hopen
  exact ⟨d, hlast, halias, Option.some.inj hopen,
    (contexts_registry lineDocument).1 d (List.mem_of_getLast? hlast)⟩

end Flowchart
