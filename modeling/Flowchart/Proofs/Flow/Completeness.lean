import Flowchart.Proofs.Draft.Contexts
import Flowchart.Proofs.Draft.Ledger

/-!
# The flow is complete

`build_complete` says that no edge of the flow is missing from a built diagram: consecutive nodes of
a column are connected unless the first one branches, a question leads to its branch and to its
target, a choice leads to its arms, and every branch and every arm comes back to the target.

An edge is left out only when its two nodes are linked, so this rests on the fact that linked nodes
are connected at any time of a build (`backed_of_mem_contexts`). Every operation keeps it, because
none links nodes without drawing an edge between them and none takes an edge away.
-/

namespace Flowchart

namespace Draft

open Stroke

/-! ## Linked nodes are connected -/

/-- Nodes that are linked are connected by an edge. -/
def Backed (d : Draft) : Prop := ∀ p ∈ d.linked, d.diagram.Connects p.1 p.2

/-- Every operation leaves linked nodes connected. -/
theorem Step.backed {d e : Draft} (hs : d.Step e) (hd : d.Closed) (h : d.Backed) : e.Backed := by
  have hkeep : ∀ {e : Draft}, e.linked = d.linked → d.diagram.edges ⊆ e.diagram.edges →
      e.Backed := fun hlinked hedges p hp => (h p (hlinked ▸ hp)).mono hedges
  cases hs with
  | enter node p free =>
    exact hkeep (linked_enter d node p) (edges_enter d node p ▸ List.Subset.refl _)
  | claim name id known =>
    obtain ⟨a, -, he⟩ := claim_eq d name id
    rw [he]
    exact hkeep rfl (List.Subset.refl _)
  | connect edge source target joins => exact hkeep rfl (List.subset_append_left _ _)
  | link edge source target joins =>
    intro p hp
    rcases List.mem_append.mp hp with hp | hp
    · exact (h p hp).mono (List.subset_append_left _ _)
    · rw [List.mem_singleton.mp hp]
      exact ⟨edge.settle source target, List.mem_concat_self, rfl, rfl⟩
  | settle =>
    rw [hd.settleEdges]
    exact h
  | _ => exact hkeep rfl (List.Subset.refl _)

/-- Linked nodes are connected throughout a passage that starts with such a draft. -/
theorem Passage.backed {d e : Draft} {t : List Draft} (hp : Passage d t e) (hd : d.Closed)
    (h : d.Backed) : ∀ x ∈ d :: t, x.Backed := by
  induction hp with
  | done d =>
    intro x hx
    exact List.mem_singleton.mp hx ▸ h
  | step first _ ih =>
    intro x hx
    rcases List.mem_cons.mp hx with rfl | hx
    · exact h
    · exact ih (first.closed hd) (first.backed hd h) x hx

/-- Building starts without linked nodes. -/
theorem backed_initial (root : Block) : (initial root).Backed := fun _ hp =>
  absurd hp List.not_mem_nil

/-- The nodes that are linked in the end are connected. -/
theorem backed_ofRoot (root : Block) : (ofRoot root).Backed :=
  (ofRoot_passage root).backed (closed_initial root) (backed_initial root) _
    (List.mem_of_getLast? (ofRoot_passage root).getLast?_eq)

/-! ## What a complete flow is -/

/-- The edges that a question asks for. -/
structure ForkComplete (d : Draft) (question : String) (fork : Fork) : Prop where
  /-- The main path leads to the target. -/
  main : ∀ target ∈ d.forkTarget question, d.diagram.Connects question target.node
  /-- A direct answer leads there with an edge of its own kind. -/
  direct : fork.branchEnd = none → ∀ target ∈ d.forkTarget question,
    d.diagram.ConnectsAs fork.side.edgeKind question target.node
  /-- A branch starts with an edge of the kind of the answer. -/
  head : ∀ last ∈ fork.branchEnd, ∃ first, d.diagram.HeadsBranch question last first ∧
    d.diagram.ConnectsAs fork.side.edgeKind question first
  /-- A branch comes back to the target unless it ends there. -/
  rejoin : ∀ last ∈ fork.branchEnd, ∀ target ∈ d.forkTarget question, last ≠ target.node →
    d.diagram.Connects last target.node

/-- The edges that an arm asks for. -/
structure ArmComplete (d : Draft) (arm : Arm) : Prop where
  /-- The choice leads to the arm. -/
  head : d.diagram.Connects arm.choice arm.id
  /-- An arm without blocks leads to the target itself. -/
  direct : arm.armEnd = none → ∀ target ∈ d.armTarget arm, d.diagram.Connects arm.id target.node
  /-- An arm with blocks comes back to the target unless it ends there. -/
  rejoin : ∀ last ∈ arm.armEnd, ∀ target ∈ d.armTarget arm, last ≠ target.node →
    d.diagram.Connects last target.node

/-- No edge of the flow is missing. -/
structure Complete (d : Draft) : Prop where
  /-- A node leads to the next one of its column unless it branches. -/
  columns : ∀ c, ∀ p ∈ neighbours ((d.diagram.nodes.filter (·.column = c)).map Node.id),
    d.isBranching p.1 = false → d.diagram.Connects p.1 p.2
  /-- The questions have their edges. -/
  forks : ∀ question fork, (question, fork) ∈ d.forks → d.ForkComplete question fork
  /-- The arms have their edges. -/
  arms : ∀ arm ∈ d.arms, d.ArmComplete arm

/-! ## No stroke is missing -/

/-- Neighbours in a column are among the neighbours in all columns. -/
theorem Registry.mem_columnPairs {d : Draft} (h : d.Registry) {c : Nat} {p : String × String}
    (hp : p ∈ neighbours ((d.diagram.nodes.filter (·.column = c)).map Node.id)) :
    p ∈ d.columnPairs := by
  rw [← h.columns c, columnIds] at hp
  cases hc : d.columns.get? c with
  | none =>
    rw [hc] at hp
    exact absurd hp List.not_mem_nil
  | some ids =>
    rw [hc] at hp
    exact List.mem_flatMap.mpr ⟨(c, ids), Table.mem_of_get? hc, hp⟩

section

variable {placed d : Draft} {opening lines : List Edge} (h : Ledger placed d opening lines)
include h

/-- The nodes of a stroke are connected in the end, whether it was drawn or left out. -/
theorem Ledger.connects (hb : d.Backed) {s : Stroke} (hs : d.Asks s) (hk : s.always = false)
    {source target : String} (he : s.ends = (source, target)) :
    d.diagram.Connects source target := by
  have hm := h.linked ▸ ends_mem_keyed_drawn (mem_strokes.mpr hs) hk
  rw [he] at hm
  exact hb _ hm

/-- A stroke that is always drawn leaves its edge. -/
theorem Ledger.mem_edges_of_always {s : Stroke} (hs : d.Asks s) (ha : s.always = true) :
    s.settled ∈ d.diagram.edges := by
  rw [h.edges]
  exact List.mem_append_right _ (List.mem_map_of_mem (mem_drawn_of_always (mem_strokes.mpr hs) ha))

/-- The edges of the placed draft stay. -/
theorem Ledger.edges_subset : placed.diagram.edges ⊆ d.diagram.edges := by
  rw [h.edges, List.append_assoc, List.append_assoc]
  exact List.subset_append_left _ _

/-- The edges of a question are all there. -/
theorem Ledger.forkComplete (hp : placed.Planned) (hb : d.Backed) {question : String} {fork : Fork}
    (hm : (question, fork) ∈ d.forks) : d.ForkComplete question fork where
  main _ ht := h.connects hb (.main hm ht) rfl rfl
  direct hend _ ht := ⟨_, h.mem_edges_of_always (.direct hm hend ht) rfl, rfl, rfl, rfl⟩
  head last hl := by
    rw [h.agrees.forks] at hm
    obtain ⟨first, hfirst, hedge⟩ := hp.branch (question, fork) hm last hl
    exact ⟨first, hfirst.mono (h.agrees.posts ▸ List.infix_refl _), hedge.mono h.edges_subset⟩
  rejoin _ hl _ ht hne := h.connects hb (.rejoin hm hl ht hne) rfl rfl

/-- The edges of an arm are all there. -/
theorem Ledger.armComplete (hb : d.Backed) {arm : Arm} (hm : arm ∈ d.arms) : d.ArmComplete arm where
  head := h.connects hb (.head hm) rfl rfl
  direct hend _ ht := h.connects hb (.emptyArm hm hend ht) rfl rfl
  rejoin _ hl _ ht hne := h.connects hb (.armRejoin hm hl ht hne) rfl rfl

end

/-- No edge of the flow of a root is missing. -/
theorem ofRoot_complete (root : Block) : (ofRoot root).Complete := by
  have h := ofRoot_ledger root
  have hp := placed_planned root
  have hb := backed_ofRoot root
  have hr := h.agrees.registry hp.closed.registry
  refine ⟨fun c p hm hplain => ?_, fun question fork hm => h.forkComplete hp hb hm,
    fun arm hm => h.armComplete hb hm⟩
  exact h.connects hb (.sequence (hr.mem_columnPairs hm) hplain) rfl rfl

end Draft

/-! ## Built diagrams -/

/-- Throughout a build, linked nodes are connected. -/
theorem backed_of_mem_contexts {document : List Statement} {d : Draft}
    (hd : d ∈ contexts document) : d.Backed := by
  unfold contexts at hd
  split at hd
  · exact absurd hd List.not_mem_nil
  · rename_i root _
    exact (Draft.ofRoot_passage root).backed (Draft.closed_initial root)
      (Draft.backed_initial root) d hd

/-- The draft that a root block describes is the last one of its build. -/
theorem exists_root_of_build {document : List Statement} {diagram : Diagram}
    (h : (Diagram.build document).1 = some diagram) :
    ∃ root, rootBlock? document = some root ∧ (contexts document).getLast? = some (.ofRoot root) ∧
      (Draft.ofRoot root).diagram = diagram := by
  unfold Diagram.build at h
  unfold contexts
  cases hroot : rootBlock? document with
  | none =>
    rw [hroot] at h
    exact nomatch h
  | some root =>
    rw [hroot] at h
    exact ⟨root, rfl, (Draft.ofRoot_passage root).getLast?_eq, Option.some.inj h⟩

/-- In a built diagram every edge of the flow is there: from a node to the next one of its column
unless the node is a question or a choice that branches, from a question down the main path and to
its branch, from a choice to its arms, and back from every branch and arm to the target. -/
theorem build_complete (document : List Statement) (diagram : Diagram)
    (h : (Diagram.build document).1 = some diagram) :
    ∃ d, (contexts document).getLast? = some d ∧ d.diagram = diagram ∧ d.Complete := by
  obtain ⟨root, -, hlast, hdiagram⟩ := exists_root_of_build h
  exact ⟨_, hlast, hdiagram, Draft.ofRoot_complete root⟩

/-- A root with a question that has a branch, and a choice with one arm that holds a block and one
that does not. -/
def branchingDocument : List Statement :=
  [.block "drakon" ["flow"]
    [.block "question" ["q"]
        [.attribute "yes" (.nested [.block "action" ["a"] [] .nowhere]) .nowhere] .nowhere,
      .block "choice" ["c"]
        [.block "case" ["x"] [.block "action" ["b"] [] .nowhere] .nowhere,
          .block "else" ["y"] [] .nowhere] .nowhere]
    .nowhere]

/-- The edges of the question and of the two arms, all of which lead on to the end. -/
theorem build_complete_branching :
    ∃ d, (contexts branchingDocument).getLast? = some d ∧
      d.forks.keys = ["q"] ∧ d.arms.map Arm.id = ["x", "y"] ∧
      d.diagram.edges.map Edge.ends =
        [("q", "a"), ("flow@start", "q"), ("x", "b"), ("b", "flow@end"), ("q", "flow@end"),
          ("a", "flow@end"), ("c", "x"), ("c", "y"), ("y", "flow@end")] ∧
      d.Complete := by
  obtain ⟨d, hlast, -, hcomplete⟩ := build_complete branchingDocument _ rfl
  have hforks : ((contexts branchingDocument).getLast?.map fun d => d.forks.keys) = some ["q"] := by
    decide +kernel
  have harms : ((contexts branchingDocument).getLast?.map fun d => d.arms.map Arm.id) =
      some ["x", "y"] := by decide +kernel
  have hedges : ((contexts branchingDocument).getLast?.map fun d =>
      d.diagram.edges.map Edge.ends) =
      some [("q", "a"), ("flow@start", "q"), ("x", "b"), ("b", "flow@end"), ("q", "flow@end"),
          ("a", "flow@end"), ("c", "x"), ("c", "y"), ("y", "flow@end")] := by decide +kernel
  rw [hlast] at hforks harms hedges
  exact ⟨d, hlast, Option.some.inj hforks, Option.some.inj harms, Option.some.inj hedges, hcomplete⟩

end Flowchart
