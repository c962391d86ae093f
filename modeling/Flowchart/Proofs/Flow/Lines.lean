import Flowchart.Document
import Flowchart.Proofs.Flow.Completeness

/-!
# Lines and the edges they replace

A line that an author writes stands for the edge that would be added between the same two nodes. The
passes that draw the flow see the lines and leave such an edge out. Two kinds of edges are drawn
before the lines are: those from questions to the heads of their branches, and the one to the
parameters. They stay beside a line, as does the edge of an answer that leads straight to the target,
which is always drawn. `line_edges` says that no other edge does.
-/

namespace Flowchart

namespace Draft

open Stroke

/-! ## Edges to the heads of branches -/

/-- An edge leads from a question that is kept to the head of its branch. -/
inductive IsHead (d : Draft) : Edge → Prop
  /-- It leads from a question to the head of its branch. -/
  | intro {question : String} {fork : Fork} (kept : (question, fork) ∈ d.forks)
      {last first : String} (ends : fork.branchEnd = some last)
      (heads : d.diagram.HeadsBranch question last first) :
      IsHead d ((branchHead ⟨question, fork.side, fork.next, fork.span⟩ first).settle question first)

/-- An edge to the head of a branch stays one. -/
theorem IsHead.mono {d e : Draft} (forks : d.forks ⊆ e.forks)
    (posts : d.diagram.posts <:+: e.diagram.posts) {edge : Edge} (h : d.IsHead edge) :
    e.IsHead edge := by
  obtain ⟨kept, ends, heads⟩ := h
  exact ⟨forks kept, ends, heads.mono posts⟩

/-- An edge to the head of a branch stays one while edges are drawn. -/
theorem Agrees.isHead {placed d : Draft} (h : Agrees placed d) {edge : Edge}
    (he : placed.IsHead edge) : d.IsHead edge :=
  he.mono (h.forks ▸ List.Subset.refl _) (h.posts ▸ List.infix_refl _)

/-- All edges drawn so far lead to the heads of branches. -/
def Headed (d : Draft) : Prop := ∀ edge ∈ d.diagram.edges, d.IsHead edge

/-- A draft with the same edges, in which questions and nodes are kept. -/
theorem Headed.of_edges {d e : Draft} (h : d.Headed) (edges : e.diagram.edges = d.diagram.edges)
    (forks : d.forks ⊆ e.forks) (posts : d.diagram.posts <:+: e.diagram.posts) : e.Headed :=
  fun edge he => (h edge (edges ▸ he)).mono forks posts

/-- A draft that has grown without an edge. -/
theorem Headed.of_grows {d e : Draft} (h : d.Headed) (hd : d.Closed) (grows : Grows d e)
    (edges : e.diagram.edges = d.diagram.edges) : e.Headed := by
  obtain ⟨more, hforks, -⟩ := grows.forks hd
  refine h.of_edges edges ?_ grows.posts.isInfix
  rw [hforks]
  exact List.subset_append_left _ _

/-- Closing the branch of a question that has not been kept adds the edge to its head. -/
theorem Headed.closeBranch {opened e : Draft} (h : e.Headed) (he : e.Planned) {a : Answer}
    {before : List Post} {asked : Post} (hopened : opened.diagram.posts = before ++ [asked])
    (hasked : asked.id = a.question) {column count : Nat} {more : List Post}
    (hbody : Body opened e column count more) (free : a.question ∉ e.forks.keys) :
    (e.closeBranch a column count).Headed := by
  rcases closeBranch_cases e a column count with
    ⟨-, hclose⟩ | ⟨first, rest, last, summary, hdrop, hlast, hclose⟩
  · rw [hclose]
    exact h.of_edges rfl (List.Subset.refl _) (List.infix_refl _)
  · rw [hclose, linkBranch_eq he free]
    have hposts : e.diagram.posts <:+: ((e.connect (branchHead a first) a.question first).keepFork a
        (some last) summary).diagram.posts := by
      rw [posts_keepFork]
      exact List.infix_refl _
    have hforks : ((e.connect (branchHead a first) a.question first).keepFork a (some last)
        summary).forks = e.forks ++ [(a.question, ⟨a.side, some last, a.next, a.span⟩)] :=
      forks_keepFork free (some last) summary
    intro edge hedge
    -- The one new edge leads to the head of the branch that is kept with it.
    rcases List.mem_append.mp hedge with hedge | hedge
    · refine (h edge hedge).mono ?_ hposts
      rw [hforks]
      exact List.subset_append_left _ _
    · rw [List.mem_singleton.mp hedge]
      have hkept : (a.question, (⟨a.side, some last, a.next, a.span⟩ : Fork)) ∈
          ((e.connect (branchHead a first) a.question first).keepFork a (some last)
            summary).forks := by
        rw [hforks]
        exact List.mem_concat_self
      have hheads := hbody.headsBranch hopened hdrop (List.mem_of_getLast? hlast)
      exact .intro hkept rfl ((hasked ▸ hheads).mono hposts)

/-- While blocks are placed, edges lead to the heads of branches only. -/
theorem Grows.headed {d e : Draft} (h : Grows d e) (hd : d.Planned) (hh : d.Headed) : e.Headed := by
  induction h with
  | done d => exact hh
  | trans h₁ _ ih₁ ih₂ => exact ih₂ (h₁.planned hd) (ih₁ hd hh)
  | report d fault span => exact hh.of_grows hd.closed (.report d fault span) rfl
  | useColumn d column => exact hh.of_grows hd.closed (.useColumn d column) rfl
  | nameLane d lane column => exact hh.of_grows hd.closed (.nameLane d lane column) rfl
  | enter node free plain => exact hh.of_grows hd.closed (.enter node free plain) (edges_enter _ _ _)
  | setAttribute d id key value => exact hh.of_grows hd.closed (.setAttribute d id key value) rfl
  | keepChoiceNext d written => exact hh.of_grows hd.closed (.keepChoiceNext d written) rfl
  | keepArms arms stand => exact hh.of_grows hd.closed (.keepArms arms stand) rfl
  | @unanswered d node free asked fault span isError =>
    exact hh.of_grows hd.closed (.unanswered node free asked fault span isError)
      (edges_enter d node .back)
  | @direct d node free asked a own =>
    have hedges : ((d.enter node .back).keepDirect a).diagram.edges =
        (d.enter node .back).diagram.edges := rfl
    exact hh.of_grows hd.closed (.direct node free asked a own)
      (hedges.trans (edges_enter d node .back))
  | @branch d e node free asked a own column body ih =>
    -- The edge of a branch leads to the first node that its blocks have put into the column.
    have hopened := (hd.enter .back free).useColumn column
    have hposts : ((d.enter node .back).useColumn column).diagram.posts =
        d.diagram.posts ++ [node.post] := by rw [diagram_useColumn, posts_enter]
    have hheaded : ((d.enter node .back).useColumn column).Headed := by
      refine hh.of_edges ?_ ?_ (hposts ▸ (List.prefix_append _ _).isInfix)
      · rw [diagram_useColumn, edges_enter]
      · rw [forks_useColumn, forks_enter]
        exact List.Subset.refl _
    obtain ⟨posts, hbody⟩ := body.body hopened.closed column
    obtain ⟨more, hforks, hnew⟩ := body.forks hopened.closed
    rw [forks_useColumn, forks_enter] at hforks
    rw [columnIds_useColumn] at hbody
    have hnode := (opened_extends d free column).2 hd.closed.registry
    rw [← own] at free hnode
    exact (ih hopened hheaded).closeBranch (body.planned hopened) hposts own.symm hbody
      (notMem_keys_of_new hd.closed free hnode hforks hnew)

/-- In the draft with all icons of a root, edges lead to the heads of branches only. -/
theorem placed_headed (root : Block) : (placeRoot root).1.Headed := by
  have hwritten : (written root).Headed :=
    (written_grows root).headed (planned_initial root) fun _ he => absurd he List.not_mem_nil
  obtain ⟨hf, -⟩ := placeRoot_furnishes root
  obtain ⟨_, hp⟩ := hf.passage
  exact hwritten.of_edges hf.edges (hf.forks ▸ List.Subset.refl _) hp.infix_posts

/-- A question that is kept with a branch has the edge to the head of its branch. -/
theorem Planned.mem_heads {d : Draft} (h : d.Planned) (hh : d.Headed) {p : String × Fork}
    (hp : p ∈ d.forks) {last : String} (hl : p.2.branchEnd = some last) :
    ∃ first, d.diagram.HeadsBranch p.1 last first ∧
      (branchHead ⟨p.1, p.2.side, p.2.next, p.2.span⟩ first).settle p.1 first ∈ d.diagram.edges := by
  obtain ⟨first, hfirst, edge, he, hs, ht, -⟩ := h.branch p hp last hl
  refine ⟨first, hfirst, ?_⟩
  -- The edge from the question to the head is one to the head of a branch, so of this branch.
  obtain ⟨kept, ends, heads⟩ := hh edge he
  obtain rfl := Option.some.inj hs
  obtain rfl := Option.some.inj ht
  rwa [Table.eq_of_mem h.nodup hp kept]

/-! ## What lines do not replace -/

/-- The edges that are drawn whether or not a line leads from the same node to the same node. -/
inductive Outlives (d : Draft) : Edge → Prop
  /-- An answer leads straight to the target of its question. -/
  | direct {question : String} {fork : Fork} (kept : (question, fork) ∈ d.forks)
      (straight : fork.branchEnd = none) {target : Reference}
      (leads : d.forkTarget question = some target) :
      Outlives d (directStroke question fork target).settled
  /-- A question leads to the head of its branch. -/
  | head {edge : Edge} (isHead : d.IsHead edge) : Outlives d edge
  /-- The start icon leads to the parameters icon. -/
  | parameters {start parameters : String} (starts : d.HasKind start .start)
      (shows : d.HasKind parameters .parameters) :
      Outlives d ((parametersEdge start parameters).settle start parameters)

/-- The edge that is kept for the parameters leads to them from the start icon. -/
theorem outlives_opening (root : Block) :
    ∀ edge ∈ openingEdges (placeRoot root).2, (placeRoot root).1.Outlives edge := by
  have hwritten := written_planned root
  have hstarted := (furnishes_addStart hwritten.closed.registry).planned hwritten
  have hplaced := (furnishes_placeParameters hstarted root).1
  have hend := furnishes_addEnd (hplaced.planned hstarted).closed.registry
  have hadds := placeParameters_adds (written root).addStart root
  unfold placeRoot
  change ∀ edge ∈ openingEdges ((written root).addStart.placeParameters root).2,
    ((written root).addStart.placeParameters root).1.addEnd.Outlives edge
  generalize (written root).addStart.placeParameters root = r at hplaced hend hadds ⊢
  cases hadds with
  | nothing diagram aliases => exact fun _ he => absurd he List.not_mem_nil
  | @icon start started node free kind column block =>
    intro edge he
    rw [List.mem_singleton.mp he]
    have hentered := hasKind_enter ((written root).addStart.useColumn
      (written root).addStart.nextColumn) node .back
    rw [kind] at hentered
    refine .parameters ((hplaced.trans hend).hasKind (hstarted.start start started)) ?_
    refine hend.hasKind ((furnishes_claim "parameters" ?_).hasKind hentered)
    exact hasNode_enter (hstarted.closed.registry.useColumn _) free

/-- What lines do not replace stays so while edges are drawn. -/
theorem Agrees.outlives {placed d : Draft} (h : Agrees placed d) (hp : placed.Registry)
    {edge : Edge} (ho : placed.Outlives edge) : d.Outlives edge := by
  cases ho with
  | direct kept straight leads =>
    refine .direct (h.forks ▸ kept) straight ?_
    rw [forkTarget, h.targets hp, h.defaultTarget]
    exact leads
  | head isHead => exact .head (h.isHead isHead)
  | parameters starts shows =>
    exact .parameters (h.hasKind_iff.mpr starts) (h.hasKind_iff.mpr shows)

/-- An edge that was not written and has the nodes of a line is one that lines do not replace. -/
theorem Ledger.outlives {placed d : Draft} {opening lines : List Edge}
    (h : Ledger placed d opening lines) (hp : placed.Registry) (hh : placed.Headed)
    (ho : ∀ edge ∈ opening, placed.Outlives edge) {line : Edge} (hl : line ∈ lines) {edge : Edge}
    (he : edge ∈ d.diagram.edges) (hw : edge.isWritten = false) (hends : edge.ends = line.ends) :
    d.Outlives edge := by
  rw [h.edges, List.mem_append, List.mem_append, List.mem_append] at he
  rcases he with ((he | he) | he) | he
  · exact h.agrees.outlives hp (.head (hh edge he))
  · exact h.agrees.outlives hp (ho edge he)
  · exact absurd (h.lines edge he).written (by rw [hw]; exact Bool.false_ne_true)
  · -- The nodes of the line are linked, so only a stroke that is always drawn remains.
    obtain ⟨s, hs, rfl⟩ := List.mem_map.mp he
    have hlinked : s.ends ∈ (opening ++ lines).map Edge.ends := by
      have hsame : s.ends = line.ends := hends
      rw [hsame]
      exact List.mem_map_of_mem (List.mem_append_right _ hl)
    have halways : s.always = true := by
      refine Bool.not_eq_false _ |>.mp fun hk => ?_
      exact (nodup_keyed_drawn _ _).2 _ (mem_keyed.mpr ⟨s, hs, hk, rfl⟩) hlinked
    cases mem_strokes.mp (mem_of_mem_drawn hs) with
    | direct kept straight leads => exact .direct kept straight leads
    | _ => exact absurd halways Bool.false_ne_true

/-- Lines leave a question the edge to the head of its branch. -/
theorem Ledger.mem_heads {placed d : Draft} {opening lines : List Edge}
    (h : Ledger placed d opening lines) (hp : placed.Planned) (hh : placed.Headed)
    {p : String × Fork} (hm : p ∈ d.forks) {last : String} (hl : p.2.branchEnd = some last) :
    ∃ first, d.diagram.HeadsBranch p.1 last first ∧
      (branchHead ⟨p.1, p.2.side, p.2.next, p.2.span⟩ first).settle p.1 first ∈ d.diagram.edges := by
  obtain ⟨first, hfirst, hedge⟩ := hp.mem_heads hh (h.agrees.forks ▸ hm) hl
  exact ⟨first, hfirst.mono (h.agrees.posts ▸ List.infix_refl _), h.edges_subset hedge⟩

end Draft

open Draft

/-! ## Built diagrams -/

/-- A line of the root whose two ends are known is drawn, and it stands for the edge that would be
added between its nodes: whatever else leads from the one to the other without having been written
is the edge of an answer that leads straight to the target, the edge to the head of a branch, or the
edge to the parameters. A question keeps the edge to the head of its branch whatever lines there
are. -/
theorem line_edges (document : List Statement) (diagram : Diagram)
    (h : (Diagram.build document).1 = some diagram) :
    ∃ root d, rootBlock? document = some root ∧ (contexts document).getLast? = some d ∧
      d.diagram = diagram ∧
      (∀ b ∈ root.blocksCalled "line", ∀ source target,
        (d.resolve (b.attributes.get? "from") .lineSource b.span).2 = some source →
        (d.resolve (b.attributes.get? "to") .lineTarget b.span).2 = some target →
        (lineEdge b.attributes source target).settle source.node target.node ∈ diagram.edges ∧
          ∀ e ∈ diagram.edges, e.isWritten = false → e.ends = (source.node, target.node) →
            d.Outlives e) ∧
      ∀ p ∈ d.forks, ∀ last ∈ p.2.branchEnd, ∃ first, diagram.HeadsBranch p.1 last first ∧
        (branchHead ⟨p.1, p.2.side, p.2.next, p.2.span⟩ first).settle p.1 first ∈ diagram.edges := by
  obtain ⟨root, hroot, hlast, rfl⟩ := exists_root_of_build h
  have hledger := ofRoot_ledger root
  have hplanned := placed_planned root
  refine ⟨root, _, hroot, hlast, rfl, fun b hb source target hsource htarget => ?_,
    fun p hp last hl => ?_⟩
  · have hline : (lineEdge b.attributes source target).settle source.node target.node ∈
        (ofRoot root).linesOf root :=
      List.mem_filterMap.mpr ⟨b, hb, lineOf?_eq_some.mpr ⟨source, target, hsource, htarget, rfl⟩⟩
    refine ⟨?_, fun e he hw hends => ?_⟩
    · rw [hledger.edges]
      exact List.mem_append_left _ (List.mem_append_right _ hline)
    · exact hledger.outlives hplanned.closed.registry (placed_headed root) (outlives_opening root)
        hline he hw hends
  · exact hledger.mem_heads hplanned (placed_headed root) hp hl

/-- A question whose branch starts with `a`, and a line from the question to `a`. -/
def lineToBranchSource : String :=
  "drakon \"d\" \x7b question \"q\" \x7b yes = \x7b action \"a\" \x7b\x7d \x7d \x7d " ++
    "line \x7b from = \"q\" to = \"a\" \x7d \x7d"

/-- The question keeps the edge to the head of its branch beside the line. -/
theorem line_edges_toBranch :
    ∃ d, (contexts (Document.read lineToBranchSource).statements).getLast? = some d ∧
      (d.diagram.edges.filter (·.ends = ("q", "a"))).map (fun e => (e.kind, e.isWritten)) =
        [(.yes, false), (.main, true)] ∧
      ∀ e ∈ d.diagram.edges, e.isWritten = false → e.ends = ("q", "a") → d.Outlives e := by
  have hbuilt : (Diagram.build (Document.read lineToBranchSource).statements).1.any (fun diagram =>
      (diagram.edges.filter (·.ends = ("q", "a"))).map (fun e => (e.kind, e.isWritten)) =
        [(.yes, false), (.main, true)]) = true := by decide +kernel
  -- The only line of the root leads from `q` to `a`.
  have hlines : (rootBlock? (Document.read lineToBranchSource).statements).all (fun root =>
      (contexts (Document.read lineToBranchSource).statements).getLast?.all fun d =>
        (root.blocksCalled "line").any fun b =>
          (d.resolve (b.attributes.get? "from") .lineSource b.span).2 = some (.toNode "q") ∧
            (d.resolve (b.attributes.get? "to") .lineTarget b.span).2 = some (.toNode "a")) =
      true := by decide +kernel
  obtain ⟨diagram, hdiagram, hedges⟩ := (Option.any_eq_true _ _).mp hbuilt
  obtain ⟨root, d, hroot, hlast, rfl, hreplaced, -⟩ := line_edges _ diagram hdiagram
  rw [hroot, hlast, Option.all_some, Option.all_some, List.any_eq_true] at hlines
  obtain ⟨b, hb, hends⟩ := hlines
  obtain ⟨hsource, htarget⟩ := of_decide_eq_true hends
  exact ⟨d, hlast, of_decide_eq_true hedges, (hreplaced b hb _ _ hsource htarget).2⟩

/-- An edge that was not written can lead from the source of a line to its target, and not be that of
an answer which leads straight to the target. -/
theorem exists_doubled_line :
    ¬ ∀ source diagram, (Document.read source).hasErrors = false →
      (Document.read source).diagram = some diagram →
      ∀ line ∈ diagram.edges, line.isWritten = true →
        ∀ e ∈ diagram.edges, e.isWritten = false → e.ends = line.ends →
          e.flag "branch_direct" = true := by
  intro hclaim
  obtain ⟨herrors, hread⟩ : (Document.read lineToBranchSource).hasErrors = false ∧
      (Document.read lineToBranchSource).diagram.any (fun diagram =>
        diagram.edges.any fun line => line.isWritten ∧ diagram.edges.any fun e =>
          e.isWritten = false ∧ e.ends = line.ends ∧ e.flag "branch_direct" = false) = true := by
    decide +kernel
  obtain ⟨diagram, hdiagram, hread⟩ := (Option.any_eq_true _ _).mp hread
  obtain ⟨line, hline, hread⟩ := List.any_eq_true.mp hread
  obtain ⟨hwritten, hread⟩ := of_decide_eq_true hread
  obtain ⟨e, he, hread⟩ := List.any_eq_true.mp hread
  obtain ⟨hunwritten, hends, hflag⟩ := of_decide_eq_true hread
  have hdirect := hclaim lineToBranchSource diagram herrors hdiagram line hline hwritten e he
    hunwritten hends
  exact Bool.false_ne_true (hflag.symm.trans hdirect)

end Flowchart
