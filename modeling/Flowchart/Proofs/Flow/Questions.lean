import Flowchart.Document
import Flowchart.Proofs.Flow.Exits

/-!
# The ways out of a question

A question has one edge for each answer, and these two are drawn for the question itself. Any other
edge that leaves it is drawn for a question or a choice around it: when a branch or an arm ends with
a question, the way back starts there too (`Flow.questionExits`).

The edge down the main path comes first of all strokes from the question, because no question kept
before it has a branch that ends there. So the answer for the main path is never left out, and a way
back to the same target always is.
-/

namespace Flowchart

namespace Draft

open Stroke

/-- The edges that leave a question which goes on with a target: one for each answer, and one to
each other target to which a branch or an arm returns from the question. -/
structure QuestionExits (d : Draft) (id : String) (target : Reference) : Prop where
  /-- One edge for yes. -/
  yes : ((d.diagram.exits id).filter (·.kind = .yes)).length = 1
  /-- One edge for no. -/
  no : ((d.diagram.exits id).filter (·.kind = .no)).length = 1
  /-- All others are along the main flow. -/
  kinds : ∀ e ∈ d.diagram.exits id, e.kind = .yes ∨ e.kind = .no ∨ e.kind = .main
  /-- No two of these enter the same node. -/
  nodup : (((d.diagram.exits id).filter (·.kind = .main)).map Edge.enters).Nodup
  /-- They enter the targets of branches and arms that the question is at the end of, except its
  own. -/
  main : ∀ other, other ∈ ((d.diagram.exits id).filter (·.kind = .main)).map Edge.enters ↔
    d.Returns id other ∧ other ≠ target.node

/-- The edges of the two sides are of different kinds. -/
theorem opposite_edgeKind_ne (side : Side) : side.opposite.edgeKind ≠ side.edgeKind := by
  cases side <;> exact EdgeKind.noConfusion

/-- The edge of a side is no edge of the main flow. -/
theorem edgeKind_ne_main (side : Side) : side.edgeKind ≠ .main := by
  cases side <;> exact EdgeKind.noConfusion

/-- An answer is for the one branch or for the other. -/
theorem eq_or_eq_opposite (side other : Side) : side = other ∨ side = other.opposite := by
  cases side <;> cases other <;> simp [Side.opposite]

/-- The kind of an answer is one of the three that edges of a question can have. -/
theorem edgeKind_eq (side : Side) :
    side.edgeKind = .yes ∨ side.edgeKind = .no ∨ side.edgeKind = .main := by
  cases side
  · exact .inl rfl
  · exact .inr (.inl rfl)

/-- A node that has a kind is called so. -/
theorem Registry.isCalled {d : Draft} (h : d.Registry) {id : String} {kind : NodeKind}
    (hk : d.HasKind id kind) : d.isCalled id kind.name = true := by
  obtain ⟨post, hm, rfl, rfl⟩ := hk
  obtain ⟨n, hn, rfl⟩ := List.mem_map.mp hm
  have hfound : d.diagram.node? n.id = some n := by
    cases hf : d.diagram.node? n.id with
    | none => exact absurd (decide_eq_true rfl) (List.find?_eq_none.mp hf n hn)
    | some m =>
      rw [Diagram.node?] at hf
      have hid : m.id = n.id := by simpa using List.find?_some hf
      rw [List.inj_on_of_nodup_map h.nodup (List.mem_of_find?_eq_some hf) hn hid]
  unfold Draft.isCalled Node.post
  rw [hfound]
  exact decide_eq_true rfl

/-- The stroke of a question that is always drawn, if it has one. -/
def directStroke? (d : Draft) (p : String × Fork) : Option Stroke :=
  if p.2.branchEnd = none then (d.forkTarget p.1).map (directStroke p.1 p.2) else none

/-- Of the strokes of a question, those that are always drawn. -/
theorem filter_always_forkStrokes (d : Draft) (p : String × Fork) :
    (forkStrokes (d.forkTarget p.1) p).filter Stroke.always = (d.directStroke? p).toList := by
  unfold forkStrokes branchStrokes directStroke?
  cases d.forkTarget p.1 with
  | none => simp
  | some target =>
    cases p.2.branchEnd with
    | none => simp [mainStroke, directStroke]
    | some last =>
      unfold rejoinStroke
      split <;> simp [mainStroke, returnStroke]

/-- The strokes that are always drawn are those of direct answers. -/
theorem filter_always_strokes (d : Draft) :
    d.strokes.filter Stroke.always = d.forks.filterMap d.directStroke? := by
  have hcolumns : (d.columnPairs.filterMap d.columnStroke).filter Stroke.always = [] := by
    refine List.filter_eq_nil_iff.mpr fun s hs => ?_
    obtain ⟨⟨source, next⟩, -, hs⟩ := List.mem_filterMap.mp hs
    rw [columnStroke] at hs
    split at hs
    · cases hs
    · rw [← Option.some.inj hs]
      exact Bool.false_ne_true
  have harms : ((groupedArms d.arms).flatMap fun arm => armStrokes (d.armTarget arm) arm).filter
      Stroke.always = [] := by
    refine List.filter_eq_nil_iff.mpr fun s hs => ?_
    obtain ⟨arm, -, hs⟩ := List.mem_flatMap.mp hs
    rcases mem_armStrokes.mp hs with rfl | ⟨_, -, ⟨-, rfl⟩ | ⟨_, -, -, rfl⟩⟩ <;>
      exact Bool.false_ne_true
  unfold strokes
  rw [List.filter_append, List.filter_append, hcolumns, harms, List.nil_append, List.append_nil,
    List.filter_flatMap, List.filterMap_eq_flatMap_toList]
  exact List.flatMap_congr fun p _ => filter_always_forkStrokes d p

section

variable {d : Draft} {heads opening lines : List Edge} (h : Flow d heads opening lines)
  {id : String} {fork : Fork} (hm : (id, fork) ∈ d.forks)

include h hm

/-- Under one id only one fork is kept. -/
theorem Flow.kept_unique {other : Fork} (ho : (id, other) ∈ d.forks) : other = fork :=
  Table.eq_of_mem h.nodup ho hm

/-- A question that is kept branches. -/
theorem Flow.isBranching : d.isBranching id = true := by
  have hcalled : d.isCalled id "question" = true := h.registry.isCalled (h.question _ hm)
  have hforks : d.forks.has id = true := Table.has_iff.mpr (List.mem_map_of_mem hm)
  rw [Draft.isBranching, hcalled, hforks]
  rfl

/-- What is kept before and after a question is about others, and no branch that is kept before
ends with it. -/
theorem Flow.split : ∃ before after, d.forks = before ++ (id, fork) :: after ∧
    (∀ p ∈ before, p.1 ≠ id ∧ p.2.branchEnd ≠ some id) ∧ ∀ p ∈ after, p.1 ≠ id := by
  obtain ⟨before, after, hsplit⟩ := List.append_of_mem hm
  have hnodup := h.nodup
  have hordered := h.ordered
  rw [hsplit] at hordered hnodup
  rw [Table.keys, List.map_append, List.map_cons, List.nodup_append, List.nodup_cons] at hnodup
  rw [List.pairwise_append] at hordered
  refine ⟨before, after, hsplit, fun p hp => ⟨?_, ?_⟩, fun p hp heq => ?_⟩
  · exact hnodup.2.2 _ (List.mem_map_of_mem hp) _ List.mem_cons_self
  · exact hordered.2.2 p hp _ List.mem_cons_self
  · have hkey : p.1 ∈ after.map Prod.fst := List.mem_map_of_mem hp
    exact hnodup.2.1.1 (heq ▸ hkey)

/-- The edge to the branch of a question, if it has one, is the only one to a branch from there. -/
theorem Flow.heads_eq :
    (heads.filter (·.leaves = id)).map Edge.exit = (branchExit (id, fork)).toList := by
  have hmap : (heads.filter (·.leaves = id)).map Edge.exit =
      (heads.map Edge.exit).filter (·.1 = id) := by
    rw [List.filter_map]
    rfl
  rw [hmap, h.heads]
  refine Table.filter_filterMap h.nodup hm fun p exit hexit => ?_
  obtain ⟨_, _, rfl⟩ := Option.map_eq_some_iff.mp hexit
  rfl

/-- The only stroke from a question that is always drawn is that of a direct answer. -/
theorem Flow.always_eq (linked : List (String × String)) :
    ((drawn linked d.strokes).filter (·.source = id)).filter Stroke.always =
      (d.directStroke? (id, fork)).toList := by
  rw [List.filter_comm, filter_always_drawn, filter_always_strokes]
  refine Table.filter_filterMap h.nodup hm fun p s hs => ?_
  rw [directStroke?] at hs
  split at hs
  · obtain ⟨_, _, rfl⟩ := Option.map_eq_some_iff.mp hs
    rfl
  · exact nomatch hs

/-- A question is not the start. -/
theorem Flow.not_start : ¬ d.HasKind id .start := fun hs =>
  NodeKind.noConfusion (h.registry.kind_unique hs (h.question _ hm))

/-- No nodes are linked to a question from which no line starts before its own strokes are drawn. -/
theorem Flow.notMem_linked
    (hunlined : ∀ e ∈ d.diagram.edges, e.isWritten = true → e.leaves ≠ id) (other : String) :
    (id, other) ∉ (opening ++ lines).map Edge.ends := by
  intro hl
  obtain ⟨e, he, hw, hends⟩ := (h.mem_linked_iff (h.not_start hm)).mp hl
  exact hunlined e he hw (Prod.mk.inj hends).1

/-- The edges of each kind that leave a question from which no line starts. -/
theorem Flow.filter_exits (hunlined : ∀ e ∈ d.diagram.edges, e.isWritten = true → e.leaves ≠ id)
    (kind : EdgeKind) :
    (d.diagram.exits id).filter (·.kind = kind) =
      (heads.filter (·.leaves = id)).filter (·.kind = kind) ++
        (((drawn ((opening ++ lines).map Edge.ends) d.strokes).filter (·.source = id)).filter
          (·.edge.kind = kind)).map settled := by
  have hlines : lines.filter (·.leaves = id) = [] := by
    refine List.filter_eq_nil_iff.mpr fun e he hid => ?_
    refine hunlined e ?_ (h.lines e he).written (of_decide_eq_true hid)
    rw [h.edges]
    exact List.mem_append_left _ (List.mem_append_right _ he)
  rw [h.exits_eq (h.not_start hm), hlines, List.append_nil, List.filter_append, List.filter_map]
  rfl

/-- The edge to the branch has the kind of the answer. -/
theorem Flow.heads_kind {e : Edge} (he : e ∈ heads.filter (·.leaves = id)) :
    e.kind = fork.side.edgeKind := by
  have hexit : e.exit ∈ (branchExit (id, fork)).toList := by
    rw [← h.heads_eq hm]
    exact List.mem_map_of_mem he
  obtain ⟨_, _, hexit⟩ := Option.map_eq_some_iff.mp (Option.mem_toList.mp hexit)
  exact (Prod.mk.inj (Prod.mk.inj hexit).2).1.symm

/-- No edge to a branch has another kind. -/
theorem Flow.filter_heads {kind : EdgeKind} (hne : kind ≠ fork.side.edgeKind) :
    (heads.filter (·.leaves = id)).filter (·.kind = kind) = [] :=
  List.filter_eq_nil_iff.mpr fun _ he hkind =>
    hne ((of_decide_eq_true hkind).symm.trans (h.heads_kind hm he))

/-- A question has one edge for the answer of its branch, to the branch or straight to the target. -/
theorem Flow.length_side {target : Reference} (ht : d.forkTarget id = some target) :
    (heads.filter (·.leaves = id)).length + (d.directStroke? (id, fork)).toList.length = 1 := by
  have hlength := congrArg List.length (h.heads_eq hm)
  rw [List.length_map] at hlength
  rw [hlength, branchExit, directStroke?, ht]
  cases fork.branchEnd <;> rfl

variable {target : Reference} (ht : d.forkTarget id = some target)

include ht

/-- A stroke from a question is one of its own, or brings it back for a branch or an arm. -/
theorem Flow.asks_question {s : Stroke} (hs : d.Asks s) (hid : s.source = id) :
    s = mainStroke id fork target ∨ (fork.branchEnd = none ∧ s = directStroke id fork target) ∨
      (s.always = false ∧ s.edge.kind = .main ∧ d.Returns id s.target) := by
  have hquestion := h.question _ hm
  cases hs with
  | sequence _ plain =>
    subst hid
    exact absurd ((h.isBranching hm).symm.trans plain) Bool.noConfusion
  | main kept leads =>
    subst hid
    rw [h.kept_unique hm kept, Option.some.inj (leads.symm.trans ht)]
    exact .inl rfl
  | direct kept none leads =>
    subst hid
    rw [h.kept_unique hm kept] at none ⊢
    rw [Option.some.inj (leads.symm.trans ht)]
    exact .inr (.inl ⟨none, rfl⟩)
  | rejoin kept ends leads moves =>
    subst hid
    exact .inr (.inr ⟨rfl, rfl, .branch kept ends leads rfl moves⟩)
  -- Edges of arms leave choices and their arms, and these are no questions.
  | head kept =>
    subst hid
    exact absurd (h.registry.kind_unique hquestion (h.arms _ kept).choice) NodeKind.noConfusion
  | emptyArm kept none leads =>
    subst hid
    exact absurd (h.registry.kind_unique hquestion (h.arms _ kept).id).symm (nodeKind_ne_question _)
  | armRejoin kept ends leads moves =>
    subst hid
    exact .inr (.inr ⟨rfl, rfl, .arm kept ends leads rfl moves⟩)

/-- The edge down the main path of a question remains when no line starts from the question. -/
theorem Flow.main_mem_drawn {linked : List (String × String)}
    (hlinked : (id, target.node) ∉ linked) :
    mainStroke id fork target ∈ drawn linked d.strokes := by
  obtain ⟨before, after, hsplit, hbefore, -⟩ := h.split hm
  have hstrokes : ∃ others, d.strokes = (d.columnPairs.filterMap d.columnStroke ++
      before.flatMap fun p => forkStrokes (d.forkTarget p.1) p) ++
        mainStroke id fork target :: others := by
    refine ⟨branchStrokes id fork target ++
      (after.flatMap fun p => forkStrokes (d.forkTarget p.1) p) ++
        (groupedArms d.arms).flatMap fun arm => armStrokes (d.armTarget arm) arm, ?_⟩
    unfold strokes
    rw [hsplit, List.flatMap_append, List.flatMap_cons, ht, forkStrokes]
    simp only [List.append_assoc, List.cons_append]
  obtain ⟨others, hstrokes⟩ := hstrokes
  rw [hstrokes]
  refine mem_drawn_of_first hlinked fun s hs hends => ?_
  have hid : s.source = id := (Prod.mk.inj hends).1
  -- Before it come strokes from nodes that do not branch and from questions kept before.
  rcases List.mem_append.mp hs with hs | hs
  · obtain ⟨⟨source, next⟩, -, hs⟩ := List.mem_filterMap.mp hs
    rw [columnStroke] at hs
    split at hs
    · cases hs
    · rename_i hplain
      have hsource : source = id := by rw [← hid, ← Option.some.inj hs]; rfl
      exact hplain (hsource ▸ h.isBranching hm)
  · obtain ⟨⟨question, other⟩, hp, hs⟩ := List.mem_flatMap.mp hs
    obtain ⟨hne, hend⟩ := hbefore _ hp
    obtain ⟨reference, -, rfl | ⟨-, rfl⟩ | ⟨last, hl, -, rfl⟩⟩ := mem_forkStrokes.mp hs
    · exact hne hid
    · exact hne hid
    · exact hend (hl.trans (congrArg some hid))

/-- A stroke that is drawn from a question is one of its own, or brings it back. -/
theorem Flow.drawn_question {linked : List (String × String)} {s : Stroke}
    (hs : s ∈ (drawn linked d.strokes).filter (·.source = id)) :
    s ∈ drawn linked d.strokes ∧ s.source = id ∧
      (s = mainStroke id fork target ∨ (fork.branchEnd = none ∧ s = directStroke id fork target) ∨
        (s.always = false ∧ s.edge.kind = .main ∧ d.Returns id s.target)) := by
  obtain ⟨hdrawn, hid⟩ := List.mem_filter.mp hs
  rw [decide_eq_true_eq] at hid
  exact ⟨hdrawn, hid, h.asks_question hm ht (mem_strokes.mp (mem_of_mem_drawn hdrawn)) hid⟩

/-- One edge from a question has the kind of the answer for the main path. -/
theorem Flow.filter_opposite {linked : List (String × String)}
    (hlinked : (id, target.node) ∉ linked) :
    ((drawn linked d.strokes).filter (·.source = id)).filter
        (·.edge.kind = fork.side.opposite.edgeKind) = [mainStroke id fork target] := by
  -- It has no other such stroke, and this one links two nodes and so is not drawn twice.
  have heq : ∀ s ∈ ((drawn linked d.strokes).filter (·.source = id)).filter
      (·.edge.kind = fork.side.opposite.edgeKind), s = mainStroke id fork target := by
    intro s hs
    obtain ⟨hs, hkind⟩ := List.mem_filter.mp hs
    rw [decide_eq_true_eq] at hkind
    obtain ⟨-, -, rfl | ⟨-, rfl⟩ | ⟨-, hback, -⟩⟩ := h.drawn_question hm ht hs
    · rfl
    · exact absurd hkind.symm (opposite_edgeKind_ne _)
    · exact absurd (hkind.symm.trans hback) (edgeKind_ne_main _)
  have hmem : mainStroke id fork target ∈ ((drawn linked d.strokes).filter (·.source = id)).filter
      (·.edge.kind = fork.side.opposite.edgeKind) := by
    refine List.mem_filter.mpr ⟨List.mem_filter.mpr ⟨h.main_mem_drawn hm ht hlinked, ?_⟩, ?_⟩ <;>
      exact decide_eq_true rfl
  have hnodup := nodup_target id (List.filter_sublist.trans List.filter_sublist)
    (fun s hs => heq s hs ▸ rfl) fun s hs => heq s hs ▸ rfl
  exact List.perm_singleton.mp ((List.perm_ext_iff_of_nodup (.of_map _ hnodup)
    (List.nodup_singleton _)).mpr fun s => ⟨fun hs => List.mem_singleton.mpr (heq s hs), fun hs =>
      List.mem_singleton.mp hs ▸ hmem⟩)

/-- Among the strokes from a question, only a direct answer has the kind of its branch. -/
theorem Flow.filter_side (linked : List (String × String)) :
    ((drawn linked d.strokes).filter (·.source = id)).filter (·.edge.kind = fork.side.edgeKind) =
      (d.directStroke? (id, fork)).toList := by
  rw [← h.always_eq hm linked]
  refine List.filter_congr fun s hs => ?_
  obtain ⟨-, -, rfl | ⟨-, rfl⟩ | ⟨hnot, hback, -⟩⟩ := h.drawn_question hm ht hs
  · exact decide_eq_false (opposite_edgeKind_ne _)
  · exact decide_eq_true rfl
  · rw [hnot, hback]
    exact decide_eq_false (edgeKind_ne_main _).symm

/-- The other edges from a question lead to the targets to which branches and arms return from
there, except its own. -/
theorem Flow.filter_main {linked : List (String × String)} (hlinked : ∀ other, (id, other) ∉ linked) :
    let back := ((drawn linked d.strokes).filter (·.source = id)).filter (·.edge.kind = .main)
    (back.map Stroke.target).Nodup ∧
      ∀ other, other ∈ back.map Stroke.target ↔ d.Returns id other ∧ other ≠ target.node := by
  intro back
  have hback : ∀ s ∈ back, s ∈ drawn linked d.strokes ∧ s.source = id ∧ s.always = false ∧
      s.edge.kind = .main ∧ d.Returns id s.target := by
    intro s hs
    obtain ⟨hs, hkind⟩ := List.mem_filter.mp hs
    rw [decide_eq_true_eq] at hkind
    obtain ⟨hdrawn, hid, rfl | ⟨-, rfl⟩ | ⟨hkeyed, hmain, hreturns⟩⟩ := h.drawn_question hm ht hs
    · exact absurd hkind (edgeKind_ne_main _)
    · exact absurd hkind (edgeKind_ne_main _)
    · exact ⟨hdrawn, hid, hkeyed, hmain, hreturns⟩
  have hmain := h.main_mem_drawn hm ht (hlinked target.node)
  refine ⟨nodup_target id (List.filter_sublist.trans List.filter_sublist)
    (fun s hs => (hback s hs).2.2.1) fun s hs => (hback s hs).2.1, fun other => ?_⟩
  rw [List.mem_map]
  constructor
  · rintro ⟨s, hs, rfl⟩
    obtain ⟨hdrawn, hid, hkeyed, hkind, hreturns⟩ := hback s hs
    refine ⟨hreturns, fun hsame => edgeKind_ne_main fork.side.opposite ?_⟩
    -- Two strokes that link the same nodes are one.
    rw [eq_of_ends_eq hdrawn hmain hkeyed rfl (Prod.ext hid hsame)] at hkind
    exact hkind
  · rintro ⟨hreturns, hne⟩
    obtain ⟨s, hasks, hkeyed, hends⟩ := hreturns.exists_stroke
    obtain ⟨t, ht', hkeyed', hends'⟩ := exists_mem_drawn (mem_strokes.mpr hasks) hkeyed
      (hends ▸ hlinked other)
    obtain ⟨hsource, htarget⟩ := Prod.mk.inj (hends'.trans hends)
    have hmine : t ∈ (drawn linked d.strokes).filter (·.source = id) :=
      List.mem_filter.mpr ⟨ht', decide_eq_true hsource⟩
    refine ⟨t, List.mem_filter.mpr ⟨hmine, ?_⟩, htarget⟩
    obtain ⟨-, -, rfl | ⟨-, rfl⟩ | ⟨-, hkind, -⟩⟩ := h.drawn_question hm ht hmine
    · exact absurd htarget.symm hne
    · exact absurd htarget.symm hne
    · exact decide_eq_true hkind

section

variable (hunlined : ∀ e ∈ d.diagram.edges, e.isWritten = true → e.leaves ≠ id)
include hunlined

/-- There is one edge for each answer. -/
theorem Flow.length_answer (side : Side) :
    ((d.diagram.exits id).filter (·.kind = side.edgeKind)).length = 1 := by
  rw [h.filter_exits hm hunlined]
  rcases eq_or_eq_opposite side fork.side with rfl | rfl
  · -- The branch has its edge from the question to its head, or a direct one.
    rw [h.filter_side hm ht, List.length_append, List.length_map,
      List.filter_eq_self.mpr fun e he => decide_eq_true (h.heads_kind hm he)]
    exact h.length_side hm ht
  · rw [h.filter_heads hm (opposite_edgeKind_ne _),
      h.filter_opposite hm ht (h.notMem_linked hm hunlined _)]
    rfl

/-- Every edge from a question is for an answer or brings it back. -/
theorem Flow.exit_kind {e : Edge} (he : e ∈ d.diagram.exits id) :
    e.kind = .yes ∨ e.kind = .no ∨ e.kind = .main := by
  have hkind : e ∈ (d.diagram.exits id).filter (·.kind = e.kind) :=
    List.mem_filter.mpr ⟨he, decide_eq_true rfl⟩
  rw [h.filter_exits hm hunlined, List.mem_append] at hkind
  rcases hkind with hkind | hkind
  · exact h.heads_kind hm (List.mem_of_mem_filter hkind) ▸ edgeKind_eq _
  · obtain ⟨s, hs, rfl⟩ := List.mem_map.mp hkind
    obtain ⟨-, -, rfl | ⟨-, rfl⟩ | ⟨-, hback, -⟩⟩ :=
      h.drawn_question hm ht (List.mem_of_mem_filter hs)
    · exact edgeKind_eq _
    · exact edgeKind_eq _
    · exact .inr (.inr hback)

/-- The ways out of a question from which no line starts. -/
theorem Flow.questionExits : d.QuestionExits id target := by
  have hmain : ((d.diagram.exits id).filter (·.kind = .main)).map Edge.enters =
      (((drawn ((opening ++ lines).map Edge.ends) d.strokes).filter (·.source = id)).filter
        (·.edge.kind = .main)).map Stroke.target := by
    rw [h.filter_exits hm hunlined, h.filter_heads hm (edgeKind_ne_main _).symm, List.nil_append,
      List.map_map]
    rfl
  obtain ⟨hnodup, hback⟩ := h.filter_main hm ht (h.notMem_linked hm hunlined)
  exact ⟨h.length_answer hm ht hunlined .yes, h.length_answer hm ht hunlined .no,
    fun _ he => h.exit_kind hm ht hunlined he, hmain ▸ hnodup, hmain ▸ hback⟩

end

end

/-- There is a target for every question if there is an end icon. -/
theorem exists_forkTarget {d : Draft} (h : ∃ id, d.HasKind id .finish) (question : String) :
    ∃ target, d.forkTarget question = some target := by
  obtain ⟨_, post, hm, -, hkind⟩ := h
  obtain ⟨n, hn, rfl⟩ := List.mem_map.mp hm
  have hfound : (d.diagram.nodes.find? (·.kind.name = "end")).isSome := by
    refine List.find?_isSome.mpr ⟨n, hn, decide_eq_true ?_⟩
    exact (congrArg NodeKind.name hkind :)
  obtain ⟨last, hlast⟩ := Option.isSome_iff_exists.mp hfound
  unfold forkTarget Targets.ofFork defaultTarget
  rw [hlast]
  cases d.resolveTargets.2.questions.get? question with
  | some target => exact ⟨target, rfl⟩
  | none =>
    cases d.aliases.get? "end" with
    | some id => exact ⟨_, rfl⟩
    | none => exact ⟨_, rfl⟩

/-- A question that is kept in the placed draft is kept in the end, and has a target. -/
theorem Ledger.answered {placed d : Draft} {opening lines : List Edge}
    (h : Ledger placed d opening lines)
    (answered : ∀ {id : String}, placed.HasKind id .question → id ∈ placed.forks.keys)
    (finish : ∃ id, placed.HasKind id .finish) {id : String} (hk : d.HasKind id .question) :
    ∃ fork target, (id, fork) ∈ d.forks ∧ d.forkTarget id = some target := by
  have hkept := answered (h.agrees.hasKind_iff.mp hk)
  rw [← h.agrees.forks] at hkept
  obtain ⟨⟨question, fork⟩, hm, hid⟩ := List.mem_map.mp hkept
  obtain ⟨last, hlast⟩ := finish
  obtain ⟨target, ht⟩ := exists_forkTarget ⟨last, h.agrees.hasKind_iff.mpr hlast⟩ id
  exact ⟨fork, target, hid ▸ hm, ht⟩

/-- The ways out of a question of a root without errors, if no line starts from it. -/
theorem ofRoot_questionExits {root : Block} (clean : (ofRoot root).Clean) {id : String}
    (hk : (ofRoot root).HasKind id .question)
    (hunlined : ∀ e ∈ (ofRoot root).diagram.edges, e.isWritten = true → e.leaves ≠ id) :
    ∃ target, (ofRoot root).forkTarget id = some target ∧ (ofRoot root).QuestionExits id target := by
  have hledger := ofRoot_ledger root
  obtain ⟨-, hedge⟩ := placeRoot_passage root
  -- There were no errors before the edges were drawn either.
  have hplaced := (connectRoot_passage (placed_planned root).closed root hedge).clean clean
  obtain ⟨fork, target, hm, ht⟩ := hledger.answered (placed_answered hplaced)
    (placed_finish hplaced) hk
  obtain ⟨heads, opening, lines, hflow⟩ := ofRoot_flow root
  exact ⟨target, ht, hflow.questionExits hm ht hunlined⟩

/-- Edges of these kinds are counted one kind after the other. -/
theorem length_eq_of_kinds {es : List Edge}
    (h : ∀ e ∈ es, e.kind = .yes ∨ e.kind = .no ∨ e.kind = .main) :
    es.length = (es.filter (·.kind = .yes)).length + (es.filter (·.kind = .no)).length +
      (es.filter (·.kind = .main)).length := by
  induction es with
  | nil => rfl
  | cons e es ih =>
    have htail := ih fun x hx => h x (List.mem_cons_of_mem _ hx)
    rcases h e List.mem_cons_self with hk | hk | hk <;> simp [hk, htail] <;> omega

/-- A question has two edges exactly if no branch and no arm returns from it to anything but its
own target. -/
theorem QuestionExits.length_eq_two_iff {d : Draft} {id : String} {target : Reference}
    (h : d.QuestionExits id target) :
    (d.diagram.exits id).length = 2 ↔ ∀ other, d.Returns id other → other = target.node := by
  have hlength := length_eq_of_kinds h.kinds
  rw [h.yes, h.no] at hlength
  have hnone : (d.diagram.exits id).length = 2 ↔
      (d.diagram.exits id).filter (·.kind = .main) = [] := by
    rw [hlength, ← List.length_eq_zero_iff]
    omega
  rw [hnone, ← List.map_eq_nil_iff (f := Edge.enters), List.eq_nil_iff_forall_not_mem]
  refine forall_congr' fun other => ?_
  rw [h.main, not_and_not_right]

end Draft

/-! ## Built diagrams -/

/-- In a diagram that is built without errors, a question from which no line starts has one edge for
each answer. Its other edges lead to the targets of the branches and arms that end with it, and there
is none exactly if those are all its own target. -/
theorem question_exits (document : List Statement) (diagram : Diagram)
    (problems : List BuildProblem) (h : Diagram.build document = (some diagram, problems))
    (clean : ∀ problem ∈ problems, problem.fault.severity ≠ .error) :
    ∃ d, (contexts document).getLast? = some d ∧ d.diagram = diagram ∧
      ∀ n ∈ diagram.nodes, n.kind = .question →
        (∀ e ∈ diagram.edges, e.isWritten = true → e.leaves ≠ n.id) →
        ∃ target, d.forkTarget n.id = some target ∧ d.QuestionExits n.id target ∧
          ((diagram.exits n.id).length = 2 ↔
            ∀ other, d.Returns n.id other → other = target.node) := by
  obtain ⟨root, -, hroot, -⟩ := exists_root_of_build (congrArg Prod.fst h)
  obtain ⟨d, hlast, rfl, rfl⟩ := build_eq_getLast? document diagram problems h
  have hd : d = Draft.ofRoot root := Option.some.inj (hlast.symm.trans hroot)
  refine ⟨d, hlast, rfl, fun n hn hkind hunlined => ?_⟩
  have hk : d.HasKind n.id .question := ⟨n.post, List.mem_map_of_mem hn, rfl, hkind⟩
  obtain ⟨target, ht, hexits⟩ : ∃ target, d.forkTarget n.id = some target ∧
      d.QuestionExits n.id target := by
    rw [hd] at clean hk hunlined ⊢
    exact Draft.ofRoot_questionExits clean hk hunlined
  exact ⟨target, ht, hexits, hexits.length_eq_two_iff⟩

/-- A question that ends the branch of another one. Both say where to go on. -/
def nestedSource : String :=
  "drakon \"d\" \x7b question \"outer\" \x7b next = \"after\" yes = \x7b " ++
    "question \"inner\" \x7b next = \"other\" \x7d \x7d \x7d " ++
    "action \"after\" \x7b\x7d action \"other\" \x7b\x7d \x7d"

/-- The inner question has its two answers, and the way back of the branch of the outer one. -/
theorem question_exits_nested :
    ∃ d target, (contexts (Document.read nestedSource).statements).getLast? = some d ∧
      d.QuestionExits "inner" target ∧ d.Returns "inner" "after" ∧ target.node ≠ "after" ∧
      (d.diagram.exits "inner").map (fun e => (e.kind, e.enters)) =
        [(.yes, "other"), (.no, "other"), (.main, "after")] := by
  obtain ⟨hproblems, hbuilt⟩ : (Diagram.build (Document.read nestedSource).statements).2 = [] ∧
      (Diagram.build (Document.read nestedSource).statements).1.any (fun diagram =>
        (diagram.nodes.any fun n => n.id = "inner" ∧ n.kind = .question) ∧
          (diagram.edges.all fun e => e.isWritten = true → e.leaves ≠ "inner") ∧
          (diagram.exits "inner").map (fun e => (e.kind, e.enters)) =
            [(.yes, "other"), (.no, "other"), (.main, "after")] ∧
          ((diagram.exits "inner").filter (·.kind = .main)).map Edge.enters = ["after"]) = true := by
    decide +kernel
  obtain ⟨diagram, hdiagram, hbuilt⟩ := (Option.any_eq_true _ _).mp hbuilt
  obtain ⟨hnode, hunlined, hexits, hback⟩ := of_decide_eq_true hbuilt
  obtain ⟨n, hn, hinner⟩ := List.any_eq_true.mp hnode
  obtain ⟨hid, hkind⟩ := of_decide_eq_true hinner
  obtain ⟨d, hlast, rfl, hquestions⟩ := question_exits _ diagram [] (Prod.ext hdiagram hproblems)
    (fun _ hp => absurd hp List.not_mem_nil)
  obtain ⟨target, -, hq, -⟩ := hquestions n hn hkind fun e he =>
    hid ▸ of_decide_eq_true (List.all_eq_true.mp hunlined e he)
  rw [hid] at hq
  obtain ⟨hreturns, hne⟩ := (hq.main "after").mp (hback ▸ List.mem_singleton_self _)
  exact ⟨d, target, hlast, hq, hreturns, hne.symm, hexits⟩

/-- A question can have more than two ways out. -/
theorem exists_three_exits :
    ¬ ∀ source diagram, (Document.read source).hasErrors = false →
      (Document.read source).diagram = some diagram →
      ∀ n ∈ diagram.nodes, n.kind = .question →
        (∀ e ∈ diagram.edges, e.isWritten = true → e.leaves ≠ n.id) →
        (diagram.exits n.id).length = 2 ∧ (∃ e ∈ diagram.exits n.id, e.kind = .yes) ∧
          ∃ e ∈ diagram.exits n.id, e.kind = .no := by
  intro hclaim
  obtain ⟨herrors, hread⟩ : (Document.read nestedSource).hasErrors = false ∧
      (Document.read nestedSource).diagram.any (fun diagram =>
        diagram.nodes.any fun n => n.kind = .question ∧
          (diagram.edges.all fun e => e.isWritten = true → e.leaves ≠ n.id) ∧
          (diagram.exits n.id).length = 3) = true := by decide +kernel
  obtain ⟨diagram, hdiagram, hread⟩ := (Option.any_eq_true _ _).mp hread
  obtain ⟨n, hn, hthree⟩ := List.any_eq_true.mp hread
  obtain ⟨hkind, hunlined, hthree⟩ := of_decide_eq_true hthree
  have htwo := (hclaim nestedSource diagram herrors hdiagram n hn hkind fun e he =>
    of_decide_eq_true (List.all_eq_true.mp hunlined e he)).1
  omega

end Flowchart
