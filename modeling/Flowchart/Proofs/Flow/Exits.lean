import Mathlib.Data.Finset.Card
import Flowchart.Document
import Flowchart.Proofs.Flow.Completeness

/-!
# The ways out of an icon

`Flow` puts together where the edges of a diagram come from and what is known of the questions and
the arms that they are drawn for. From it follows which edges leave an icon.

An ordinary icon, one that is no start, question or choice, gets one edge to each node it goes on
to, and it goes on to the next node of its column as well as to the target of every branch or arm
that ends with it (`made_exits`). The first arm of a choice shares its column, so behind the end of
that arm stands what follows the choice, and the icon there can have two ways out.
-/

namespace Flowchart

/-- The edges that leave a node and were not written as lines. -/
def Diagram.made (d : Diagram) (id : String) : List Edge :=
  d.edges.filter fun e => !e.isWritten && e.leaves = id

/-- The edges that leave a node. -/
def Diagram.exits (d : Diagram) (id : String) : List Edge := d.edges.filter (·.leaves = id)

/-- A line leads from one node to another. -/
def Diagram.IsLined (d : Diagram) (source target : String) : Prop :=
  ∃ e ∈ d.edges, e.isWritten = true ∧ e.ends = (source, target)

namespace Draft

open Stroke

/-- A branch or an arm that ends with a node goes on from there to a target. -/
inductive Returns (d : Draft) (id target : String) : Prop
  /-- At the end of a branch, to the target of its question. -/
  | branch {question : String} {fork : Fork} (kept : (question, fork) ∈ d.forks)
      (ends : fork.branchEnd = some id) {reference : Reference}
      (leads : d.forkTarget question = some reference) (node : reference.node = target)
      (moves : id ≠ target)
  /-- At the end of an arm, to its target. -/
  | arm {arm : Arm} (kept : arm ∈ d.arms) (ends : arm.armEnd = some id) {reference : Reference}
      (leads : d.armTarget arm = some reference) (node : reference.node = target)
      (moves : id ≠ target)
  /-- From an arm without blocks, to its target. -/
  | emptyArm {arm : Arm} (kept : arm ∈ d.arms) (none : arm.armEnd = none) (self : arm.id = id)
      {reference : Reference} (leads : d.armTarget arm = some reference)
      (node : reference.node = target)

/-- A node goes on to the next one of its column and to where a branch or an arm returns, unless a
line leads there. -/
def GoesOn (d : Draft) (id target : String) : Prop :=
  ((id, target) ∈ d.columnPairs ∨ d.Returns id target) ∧ ¬ d.diagram.IsLined id target

/-! ## Where edges come from -/

/-- The edges of a diagram are those to the heads of branches, the one to the parameters, the lines,
and the strokes that remain when the nodes of the latter two are linked. -/
structure Flow (d : Draft) (heads opening lines : List Edge) : Prop where
  /-- Ids and names lead to nodes. -/
  registry : d.Registry
  /-- The edges are those of the branches, the opening ones, the lines, and the strokes that are
  left to draw. -/
  edges : d.diagram.edges = heads ++ opening ++ lines ++
    (drawn ((opening ++ lines).map Edge.ends) d.strokes).map settled
  /-- The first of them lead from questions to the heads of their branches. -/
  heads : heads.map Edge.exit = d.forks.filterMap branchExit
  /-- The next ones leave the start. -/
  opening : ∀ e ∈ opening, d.LeavesStart e
  /-- The lines were written, and both ends are noted. -/
  lines : ∀ line ∈ lines, IsLine line
  /-- What is kept as a question is one. -/
  question : ∀ p ∈ d.forks, d.HasKind p.1 .question
  /-- No question is kept twice. -/
  nodup : d.forks.keys.Nodup
  /-- No question is at the end of the branch of one that is kept before it. -/
  ordered : d.forks.Pairwise fun earlier later => earlier.2.branchEnd ≠ some later.1
  /-- The arms that are kept stand where they should. -/
  arms : ∀ arm ∈ d.arms, d.ArmStands arm

/-- What is planned of the placed draft is what the edges are drawn for. -/
theorem Ledger.flow {placed d : Draft} {opening lines : List Edge}
    (h : Ledger placed d opening lines) (hp : placed.Planned)
    (hopening : ∀ e ∈ opening, placed.LeavesStart e) :
    Flow d placed.diagram.edges opening lines where
  registry := h.agrees.registry hp.closed.registry
  edges := h.edges
  heads := by rw [h.agrees.forks, hp.exits]
  opening e he := ⟨h.agrees.hasKind_iff.mpr (hopening e he).leaves, (hopening e he).unwritten⟩
  lines := h.lines
  question p hm := h.agrees.hasKind_iff.mpr (hp.question p (h.agrees.forks ▸ hm))
  nodup := h.agrees.forks ▸ hp.nodup
  ordered := h.agrees.forks ▸ hp.ordered
  arms arm ha := by
    have hs := hp.arms arm (h.agrees.arms ▸ ha)
    refine ⟨h.agrees.hasKind_iff.mpr hs.choice, h.agrees.hasKind_iff.mpr hs.id, fun last hl => ?_⟩
    rw [hasNode, h.agrees.ids]
    exact hs.armEnd last hl

/-- The edges of a root come from where they should. -/
theorem ofRoot_flow (root : Block) :
    ∃ heads opening lines, Flow (ofRoot root) heads opening lines := by
  have h := ofRoot_ledger root
  refine ⟨_, _, _, h.flow (placed_planned root) fun e he => ?_⟩
  obtain ⟨x, hx, rfl⟩ := List.mem_map.mp he
  have hstart := (placeRoot_furnishes root).2 x (Option.mem_toList.mp hx)
  exact ⟨hstart.leaves, hstart.unwritten⟩

/-- A node has one kind. -/
theorem Registry.kind_unique {d : Draft} (h : d.Registry) {id : String} {kind other : NodeKind}
    (hk : d.HasKind id kind) (ho : d.HasKind id other) : kind = other := by
  obtain ⟨post, hm, rfl, rfl⟩ := hk
  obtain ⟨post', hm', hid, rfl⟩ := ho
  have hnodup := h.nodup
  rw [map_id_eq_posts] at hnodup
  rw [List.inj_on_of_nodup_map hnodup hm' hm hid]

/-- No stroke was written as a line. -/
theorem Asks.unwritten {d : Draft} {s : Stroke} (h : d.Asks s) : s.settled.isWritten = false := by
  cases h <;> rfl

/-- There is a stroke to wherever an icon returns. -/
theorem Returns.exists_stroke {d : Draft} {id target : String} (h : d.Returns id target) :
    ∃ s, d.Asks s ∧ s.always = false ∧ s.ends = (id, target) := by
  cases h with
  | branch kept ends leads node moves =>
    subst node
    exact ⟨_, .rejoin kept ends leads moves, rfl, rfl⟩
  | arm kept ends leads node moves =>
    subst node
    exact ⟨_, .armRejoin kept ends leads moves, rfl, rfl⟩
  | emptyArm kept none self leads node =>
    subst node self
    exact ⟨_, .emptyArm kept none leads, rfl, rfl⟩

section

variable {d : Draft} {heads opening lines : List Edge} (h : Flow d heads opening lines)
include h

/-- An edge to the head of a branch leaves a question that is kept. -/
theorem Flow.exit_of_mem_heads {e : Edge} (he : e ∈ heads) :
    ∃ p ∈ d.forks, branchExit p = some e.exit :=
  List.mem_filterMap.mp (h.heads ▸ List.mem_map_of_mem he)

/-- The edges to the heads of branches leave questions. -/
theorem Flow.head_leaves {e : Edge} (he : e ∈ heads) : d.HasKind e.leaves .question := by
  obtain ⟨⟨question, fork⟩, hp, hexit⟩ := h.exit_of_mem_heads he
  obtain ⟨_, _, hexit⟩ := Option.map_eq_some_iff.mp hexit
  rw [← (Prod.mk.inj hexit).1]
  exact h.question _ hp

/-- The edges to the heads of branches are made up. -/
theorem Flow.head_unwritten {e : Edge} (he : e ∈ heads) : e.isWritten = false := by
  obtain ⟨⟨question, fork⟩, hp, hexit⟩ := h.exit_of_mem_heads he
  obtain ⟨_, _, hexit⟩ := Option.map_eq_some_iff.mp hexit
  exact (Prod.mk.inj (Prod.mk.inj hexit).2).2.symm

/-- The lines of a diagram are the edges that were written. -/
theorem Flow.isLined_iff {source target : String} :
    d.diagram.IsLined source target ↔ (source, target) ∈ lines.map Edge.ends := by
  rw [List.mem_map]
  constructor
  · rintro ⟨e, he, hw, hends⟩
    rw [h.edges, List.mem_append, List.mem_append, List.mem_append] at he
    rcases he with ((he | he) | he) | he
    · exact absurd hw (by rw [h.head_unwritten he]; exact Bool.false_ne_true)
    · exact absurd hw (by rw [(h.opening e he).unwritten]; exact Bool.false_ne_true)
    · exact ⟨e, he, hends⟩
    · obtain ⟨s, hs, rfl⟩ := List.mem_map.mp he
      have hasks := mem_strokes.mp (mem_of_mem_drawn hs)
      exact absurd hw (by rw [hasks.unwritten]; exact Bool.false_ne_true)
  · rintro ⟨e, he, hends⟩
    refine ⟨e, ?_, (h.lines e he).written, hends⟩
    rw [h.edges]
    exact List.mem_append_left _ (List.mem_append_right _ he)

/-- The nodes of the edge to the parameters and of the lines, seen from a node that is no start. -/
theorem Flow.mem_linked_iff {id target : String} (hstart : ¬ d.HasKind id .start) :
    (id, target) ∈ (opening ++ lines).map Edge.ends ↔ d.diagram.IsLined id target := by
  rw [h.isLined_iff, List.map_append, List.mem_append]
  refine ⟨fun hm => hm.resolve_left fun hm => ?_, .inr⟩
  obtain ⟨e, he, hends⟩ := List.mem_map.mp hm
  exact hstart ((Prod.mk.inj hends).1 ▸ (h.opening e he).leaves)

/-- The edges that leave a node which is no start: those to branches, lines and strokes. -/
theorem Flow.exits_eq {id : String} (hstart : ¬ d.HasKind id .start) :
    d.diagram.exits id = heads.filter (·.leaves = id) ++ lines.filter (·.leaves = id) ++
      ((drawn ((opening ++ lines).map Edge.ends) d.strokes).filter (·.source = id)).map settled := by
  have hopening : opening.filter (·.leaves = id) = [] := by
    refine List.filter_eq_nil_iff.mpr fun e he hid => hstart ?_
    exact of_decide_eq_true hid ▸ (h.opening e he).leaves
  rw [Diagram.exits, h.edges, List.filter_append, List.filter_append, List.filter_append, hopening,
    List.append_nil, List.filter_map]
  rfl

/-! ## Ordinary icons -/

/-- The edges that an ordinary icon has without its lines are strokes. -/
theorem Flow.made_eq {id : String} (hstart : ¬ d.HasKind id .start)
    (hquestion : ¬ d.HasKind id .question) :
    d.diagram.made id =
      ((drawn ((opening ++ lines).map Edge.ends) d.strokes).filter (·.source = id)).map settled := by
  have hheads : heads.filter (·.leaves = id) = [] := by
    refine List.filter_eq_nil_iff.mpr fun e he hid => hquestion ?_
    exact of_decide_eq_true hid ▸ h.head_leaves he
  have hmade : d.diagram.made id = (d.diagram.exits id).filter fun e => !e.isWritten := by
    rw [Diagram.made, Diagram.exits, List.filter_filter]
  have hlines : (lines.filter (·.leaves = id)).filter (fun e => !e.isWritten) = [] := by
    refine List.filter_eq_nil_iff.mpr fun e he hw => ?_
    rw [(h.lines e (List.mem_of_mem_filter he)).written] at hw
    exact Bool.false_ne_true hw
  rw [hmade, h.exits_eq hstart, hheads, List.nil_append, List.filter_append, hlines, List.nil_append,
    List.filter_eq_self]
  intro e he
  obtain ⟨s, hs, rfl⟩ := List.mem_map.mp he
  rw [(mem_strokes.mp (mem_of_mem_drawn (List.mem_of_mem_filter hs))).unwritten]
  rfl

/-- A stroke from an ordinary icon is drawn to link two nodes, and leads where the icon goes on. -/
theorem Flow.goesOn_of_asks {s : Stroke} (hs : d.Asks s) (hquestion : ¬ d.HasKind s.source .question)
    (hchoice : ¬ d.HasKind s.source .choice) :
    s.always = false ∧ (s.ends ∈ d.columnPairs ∨ d.Returns s.source s.target) := by
  cases hs with
  | sequence pair _ => exact ⟨rfl, .inl pair⟩
  | main kept _ => exact absurd (h.question _ kept) hquestion
  | direct kept _ _ => exact absurd (h.question _ kept) hquestion
  | rejoin kept ends leads moves => exact ⟨rfl, .inr (.branch kept ends leads rfl moves)⟩
  | head kept => exact absurd (h.arms _ kept).choice hchoice
  | emptyArm kept none leads => exact ⟨rfl, .inr (.emptyArm kept none rfl leads rfl)⟩
  | armRejoin kept ends leads moves => exact ⟨rfl, .inr (.arm kept ends leads rfl moves)⟩

/-- Only questions and choices branch. -/
theorem Flow.isBranching_eq_false {id : String} (hquestion : ¬ d.HasKind id .question)
    (hchoice : ¬ d.HasKind id .choice) : d.isBranching id = false := by
  have hforks : d.forks.has id = false := by
    refine Bool.eq_false_iff.mpr fun hf => hquestion ?_
    obtain ⟨p, hp, rfl⟩ := List.mem_map.mp (Table.has_iff.mp hf)
    exact h.question p hp
  have harms : d.arms.any (·.choice = id) = false := by
    refine Bool.eq_false_iff.mpr fun ha => hchoice ?_
    obtain ⟨arm, ha, hid⟩ := List.any_eq_true.mp ha
    exact of_decide_eq_true hid ▸ (h.arms arm ha).choice
  rw [isBranching, hforks, harms, Bool.and_false, Bool.and_false]
  rfl

/-- The edges of an ordinary icon lead to different nodes, namely to all those that it goes on to. -/
theorem Flow.made {id : String} (hstart : ¬ d.HasKind id .start)
    (hquestion : ¬ d.HasKind id .question) (hchoice : ¬ d.HasKind id .choice) :
    ((d.diagram.made id).map Edge.enters).Nodup ∧
      ∀ target, target ∈ (d.diagram.made id).map Edge.enters ↔ d.GoesOn id target := by
  rw [h.made_eq hstart hquestion, List.map_map]
  have hlined : ∀ target, (id, target) ∈ (opening ++ lines).map Edge.ends ↔
      d.diagram.IsLined id target := fun _ => h.mem_linked_iff hstart
  generalize (opening ++ lines).map Edge.ends = linked at hlined
  -- A stroke from the icon links two nodes and leads where the icon goes on.
  have hplain : ∀ s ∈ (drawn linked d.strokes).filter (·.source = id), s ∈ drawn linked d.strokes ∧
      s.source = id ∧ s.always = false ∧ (s.ends ∈ d.columnPairs ∨ d.Returns id s.target) := by
    intro s hs
    obtain ⟨hdrawn, hid⟩ := List.mem_filter.mp hs
    obtain rfl := of_decide_eq_true hid
    have hasks := mem_strokes.mp (mem_of_mem_drawn hdrawn)
    exact ⟨hdrawn, rfl, h.goesOn_of_asks hasks hquestion hchoice⟩
  refine ⟨nodup_target id List.filter_sublist (fun s hs => (hplain s hs).2.2.1)
    fun s hs => (hplain s hs).2.1, fun target => ?_⟩
  rw [List.mem_map]
  constructor
  · rintro ⟨s, hs, rfl⟩
    obtain ⟨hdrawn, hid, hkeyed, hway⟩ := hplain s hs
    have hends : s.ends = (id, s.target) := Prod.ext hid rfl
    refine ⟨hends ▸ hway, fun hl => ?_⟩
    exact (nodup_keyed_drawn linked d.strokes).2 _ (mem_keyed.mpr ⟨s, hdrawn, hkeyed, hends⟩)
      ((hlined s.target).mpr hl)
  · rintro ⟨hway, hnot⟩
    have hstroke : ∃ s, d.Asks s ∧ s.always = false ∧ s.ends = (id, target) := by
      rcases hway with hpair | hreturns
      · exact ⟨_, .sequence hpair (h.isBranching_eq_false hquestion hchoice), rfl, rfl⟩
      · exact hreturns.exists_stroke
    obtain ⟨s, hasks, hkeyed, hends⟩ := hstroke
    have hnew : s.ends ∉ linked := hends ▸ fun hm => hnot ((hlined target).mp hm)
    obtain ⟨t, ht, -, hte⟩ := exists_mem_drawn (mem_strokes.mpr hasks) hkeyed hnew
    obtain ⟨hsource, htarget⟩ := Prod.mk.inj (hte.trans hends)
    exact ⟨t, List.mem_filter.mpr ⟨ht, decide_eq_true hsource⟩, htarget⟩

end

end Draft

/-! ## Built diagrams -/

/-- In a built diagram an ordinary icon has one edge that was not written to each node it goes on
to: the next one in its column and the targets of the branches and arms that end with it. So it has
one way out at most if these are all the same. -/
theorem made_exits (document : List Statement) (diagram : Diagram)
    (h : (Diagram.build document).1 = some diagram) :
    ∃ d, (contexts document).getLast? = some d ∧ d.diagram = diagram ∧
      ∀ n ∈ diagram.nodes, n.kind ≠ .start → n.kind ≠ .question → n.kind ≠ .choice →
        ((diagram.made n.id).map Edge.enters).Nodup ∧
          (∀ target, target ∈ (diagram.made n.id).map Edge.enters ↔ d.GoesOn n.id target) ∧
          ((diagram.made n.id).length ≤ 1 ↔
            ∀ target other, d.GoesOn n.id target → d.GoesOn n.id other → target = other) := by
  obtain ⟨root, -, hlast, rfl⟩ := exists_root_of_build h
  obtain ⟨heads, opening, lines, hflow⟩ := Draft.ofRoot_flow root
  refine ⟨_, hlast, rfl, fun n hn hstart hquestion hchoice => ?_⟩
  have hkind : ∀ kind, n.kind ≠ kind → ¬ (Draft.ofRoot root).HasKind n.id kind := fun kind hne hk =>
    hne (hflow.registry.kind_unique ⟨n.post, List.mem_map_of_mem hn, rfl, rfl⟩ hk)
  obtain ⟨hnodup, hmem⟩ := hflow.made (hkind _ hstart) (hkind _ hquestion) (hkind _ hchoice)
  refine ⟨hnodup, hmem, ?_⟩
  rw [← List.length_map Edge.enters, ← List.toFinset_card_of_nodup hnodup, Finset.card_le_one]
  simp only [List.mem_toFinset, hmem]
  exact ⟨fun hall _ _ ha hb => hall _ ha _ hb, fun hall _ ha _ hb => hall _ _ ha hb⟩

/-- A choice whose first arm is without blocks, and an icon behind the choice. The arm stands in the
column of the choice, right before that icon. -/
def emptyArmSource : String :=
  "drakon \"d\" \x7b choice \"c\" \x7b case \"x\" \x7b\x7d else \"y\" \x7b\x7d \x7d " ++
    "action \"z\" \x7b\x7d \x7d"

/-- The arm goes on to the icon behind it and to the end. -/
theorem made_exits_emptyArm :
    ∃ d, (contexts (Document.read emptyArmSource).statements).getLast? = some d ∧
      (d.diagram.made "x").map Edge.enters = ["z", "d@end"] ∧
      d.GoesOn "x" "z" ∧ d.GoesOn "x" "d@end" := by
  have hbuilt : (Diagram.build (Document.read emptyArmSource).statements).1.any (fun diagram =>
      (diagram.nodes.any fun n => n.id = "x" ∧ n.kind = .caseArm) ∧
        (diagram.made "x").map Edge.enters = ["z", "d@end"]) = true := by decide +kernel
  obtain ⟨diagram, hdiagram, hbuilt⟩ := (Option.any_eq_true _ _).mp hbuilt
  obtain ⟨hnode, hmade⟩ := of_decide_eq_true hbuilt
  obtain ⟨n, hn, hx⟩ := List.any_eq_true.mp hnode
  obtain ⟨hid, hkind⟩ := of_decide_eq_true hx
  obtain ⟨d, hlast, rfl, hexits⟩ := made_exits _ diagram hdiagram
  obtain ⟨-, hmem, -⟩ := hexits n hn (by rw [hkind]; exact NodeKind.noConfusion)
    (by rw [hkind]; exact NodeKind.noConfusion) (by rw [hkind]; exact NodeKind.noConfusion)
  rw [hid, hmade] at hmem
  exact ⟨d, hlast, hmade, (hmem _).mp (by decide), (hmem _).mp (by decide)⟩

/-- An ordinary icon can have more than one way out that was not written. -/
theorem exists_two_exits :
    ¬ ∀ source diagram, (Document.read source).hasErrors = false →
      (Document.read source).diagram = some diagram →
      ∀ n ∈ diagram.nodes, n.kind ≠ .start → n.kind ≠ .question → n.kind ≠ .choice →
        (diagram.made n.id).length ≤ 1 := by
  intro hclaim
  obtain ⟨herrors, hread⟩ : (Document.read emptyArmSource).hasErrors = false ∧
      (Document.read emptyArmSource).diagram.any (fun diagram =>
        diagram.nodes.any fun n => n.kind = .caseArm ∧ (diagram.made n.id).length = 2) = true := by
    decide +kernel
  obtain ⟨diagram, hdiagram, hread⟩ := (Option.any_eq_true _ _).mp hread
  obtain ⟨n, hn, htwo⟩ := List.any_eq_true.mp hread
  obtain ⟨hkind, htwo⟩ := of_decide_eq_true htwo
  have hone := hclaim emptyArmSource diagram herrors hdiagram n hn
    (by rw [hkind]; exact NodeKind.noConfusion) (by rw [hkind]; exact NodeKind.noConfusion)
    (by rw [hkind]; exact NodeKind.noConfusion)
  omega

end Flowchart
