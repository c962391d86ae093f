import Flowchart.Proofs.Draft.Frame
import Flowchart.Proofs.Draft.Keeping
import Flowchart.Proofs.Flow.Lines

/-!
# The flow leads downwards

A root is unguided if its author draws no lines, writes no targets on questions, choices and arms,
and leaves the name `end` alone. Then every edge leads from a node to one that stands behind it in
the diagram (`ofRoot_precedes`). An edge to the head of a branch does so because the branch is
placed behind its question, an edge inside a column because a column has the order of the diagram,
and an edge to an arm because the arm is placed behind its choice; all other edges lead from the
written icons, or the start icon, to the icons behind them (`Descends`).
-/

namespace Flowchart

/-- The author leaves the flow alone: there are no lines, no targets are written on questions,
choices and arms, and no label or anchor is the name `end`. -/
structure Block.Unguided (root : Block) : Prop where
  /-- No line is written. -/
  lines : root.blocksCalled "line" = []
  /-- No target is written. -/
  next : ∀ o ∈ Outline.allOf root.outline.children,
    o.block.name ∈ ["question", "choice", "case", "else"] →
      o.block.attributes.trimmed? "next" = none
  /-- No block claims the name `end`. -/
  sparesEnd : ∀ o ∈ Outline.allOf root.outline.children, o.block.SparesEnd

/-- Whether the author leaves the flow alone can be read off the blocks. -/
instance (root : Block) : Decidable root.Unguided :=
  decidable_of_iff (root.blocksCalled "line" = [] ∧
    (∀ o ∈ Outline.allOf root.outline.children,
      o.block.name ∈ ["question", "choice", "case", "else"] →
        o.block.attributes.trimmed? "next" = none) ∧
    ∀ o ∈ Outline.allOf root.outline.children, o.block.SparesEnd)
    ⟨fun h => ⟨h.1, h.2.1, h.2.2⟩, fun h => ⟨h.1, h.2, h.3⟩⟩

/-- One node stands before another one. -/
def Diagram.Precedes (d : Diagram) (u v : String) : Prop := [u, v].Sublist (d.nodes.map Node.id)

/-- Of two neighbours the first one stands before the second one. -/
theorem sublist_of_mem_neighbours {α : Type} {as : List α} {p : α × α} (h : p ∈ neighbours as) :
    [p.1, p.2].Sublist as := by
  induction as with
  | nil => exact absurd h List.not_mem_nil
  | cons a as ih =>
    cases as with
    | nil => exact absurd h List.not_mem_nil
    | cons b as =>
      rcases List.mem_cons.mp h with rfl | h
      · exact .cons_cons a (List.singleton_sublist.mpr List.mem_cons_self)
      · exact .cons a (ih h)

namespace Draft

/-! ## No targets -/

/-- A loop whose turns change nothing. -/
theorem foldl_eq_self {σ α : Type} {turn : σ → α → σ} {s : σ} {xs : List α}
    (h : ∀ x ∈ xs, turn s x = s) : xs.foldl turn s = s := by
  induction xs with
  | nil => rfl
  | cons x xs ih =>
    rw [List.foldl_cons, h x List.mem_cons_self]
    exact ih fun y hy => h y (List.mem_cons_of_mem x hy)

/-- A question goes on by default if no targets have been found. -/
theorem ofFork_empty (default : Option Reference) (question : String) :
    Targets.ofFork {} default question = default := rfl

/-- An arm goes on by default if no targets have been found. -/
theorem ofArm_empty (default : Option Reference) (arm : Arm) :
    Targets.ofArm {} default arm = default := rfl

/-- Where no targets are written none are found. -/
theorem resolveTargets_eq_nil {d : Draft} (forks : ∀ p ∈ d.forks, p.2.next = none)
    (choiceNexts : d.choiceNexts = []) (arms : ∀ arm ∈ d.arms, arm.next = none) :
    d.resolveTargets.2 = {} := by
  have hforks : d.forks.foldl resolveFork (d, []) = (d, []) := foldl_eq_self fun p hp => by
    rw [resolveFork, forks p hp]
  have harms : d.arms.foldl resolveArm (d, []) = (d, []) := foldl_eq_self fun arm ha => by
    rw [resolveArm, arms arm ha]
  unfold resolveTargets
  rw [hforks]
  dsimp only
  rw [choiceNexts, List.foldl_nil]
  dsimp only
  rw [harms]

section

variable {root : Block} (h : root.Unguided)
include h

/-- An unguided root has no targets. -/
theorem resolveTargets_ofRoot : (ofRoot root).resolveTargets.2 = {} := by
  -- What is kept comes from outlines whose names say that they are questions, choices or arms.
  refine resolveTargets_eq_nil (fun p hp => ?_) ?_ fun arm ha => ?_
  · obtain ⟨o, own, asked, hnext⟩ := (keptFork_ofRoot hp).next
    have hname : o.block.name = "question" := by rw [← name_ofName o.block.name, asked]; rfl
    rw [hnext, h.next o own (hname.symm ▸ by decide)]
  · refine List.eq_nil_iff_forall_not_mem.mpr fun written hw => ?_
    obtain ⟨o, own, asks, hnext⟩ := keptNext_ofRoot hw
    have hname : o.block.name = "choice" := by rw [← name_ofName o.block.name, asks]; rfl
    rw [h.next o own (hname.symm ▸ by decide)] at hnext
    exact nomatch hnext
  · obtain ⟨o, column, opened, closed, hrun⟩ := keptArm_ofRoot ha
    have hnamed : ∀ kind : ArmKind, kind.name ∈ ["question", "choice", "case", "else"] := by
      rintro (_ | _) <;> decide
    rw [hrun.next, h.next o hrun.own (ArmKind.name_of_ofName? hrun.named ▸ hnamed _)]

/-- A question of an unguided root goes on by default. -/
theorem forkTarget_ofRoot (question : String) :
    (ofRoot root).forkTarget question = (ofRoot root).defaultTarget := by
  rw [forkTarget, resolveTargets_ofRoot h, ofFork_empty]

/-- An arm of an unguided root goes on by default. -/
theorem armTarget_ofRoot (arm : Arm) :
    (ofRoot root).armTarget arm = (ofRoot root).defaultTarget := by
  rw [armTarget, resolveTargets_ofRoot h, ofArm_empty]

end

/-! ## Every edge descends -/

/-- The ways in which an edge leads downwards, where the icons of `upper` stand above those of
`lower`. -/
inductive Descends (d : Draft) (upper lower : List Post) (e : Edge) : Prop
  /-- From a question to the head of its branch. -/
  | head (isHead : d.IsHead e)
  /-- From a node to the next one of its column. -/
  | sequence (pair : e.ends ∈ d.columnPairs)
  /-- From a choice to the head of an arm. -/
  | arm {arm : Arm} (kept : arm ∈ d.arms) (ends : e.ends = (arm.choice, arm.id))
  /-- From the upper nodes to the lower ones. -/
  | ending (leaves : e.leaves ∈ upper.map Post.id) (enters : e.enters ∈ lower.map Post.id)

/-- An unguided root is drawn around the written icons: behind them stand those to which the flow
goes on by default and the parameters. -/
theorem ofRoot_framed {root : Block} (h : root.Unguided) :
    ∃ front back, Framed (written root) (ofRoot root) front back ∧
      ∀ edge ∈ openingEdges (placeRoot root).2, edge.leaves ∈ front.map Post.id ∧
        edge.enters ∈ back.map Post.id := by
  obtain ⟨front, back, hframed, hopening⟩ := placeRoot_framed (written_endless h.sparesEnd)
  have hagrees := (ofRoot_ledger root).agrees
  refine ⟨front, back, hframed.of_same hagrees.posts hagrees.aliases, fun edge he => ?_⟩
  obtain ⟨opening, hopened, rfl⟩ := List.mem_map.mp he
  exact hopening opening (Option.mem_toList.mp hopened)

/-- The edges of an unguided root lead downwards. -/
theorem Framed.descends {root : Block} (h : root.Unguided) {front back : List Post}
    (hframed : Framed (written root) (ofRoot root) front back)
    (hopening : ∀ edge ∈ openingEdges (placeRoot root).2, edge.leaves ∈ front.map Post.id ∧
      edge.enters ∈ back.map Post.id) :
    ∀ e ∈ (ofRoot root).diagram.edges,
      Descends (ofRoot root) (front ++ (written root).diagram.posts) back e := by
  intro e he
  have hclosed := (written_planned root).closed
  -- Questions, arms and their ends were written, and the flow goes on behind what was written.
  have hupper : ∀ {id}, (written root).hasNode id →
      id ∈ (front ++ (written root).diagram.posts).map Post.id := fun hid => by
    rw [hclosed.registry.hasNode_iff_mem, map_id_eq_posts] at hid
    rw [List.map_append]
    exact List.mem_append_right _ hid
  have hfork : ∀ {question fork}, (question, fork) ∈ (ofRoot root).forks →
      (written root).KnowsFork question fork := fun kept =>
    hclosed.forks _ _ (forks_ofRoot root ▸ kept)
  have harm : ∀ {arm}, arm ∈ (ofRoot root).arms → (written root).KnowsArm arm := fun kept =>
    hclosed.arms _ (arms_ofRoot root ▸ kept)
  have hlower : ∀ {target}, (ofRoot root).defaultTarget = some target →
      target.node ∈ back.map Post.id := hframed.defaultTarget (written_endless h.sparesEnd)
  have hledger := ofRoot_ledger root
  -- The heads of branches, the edge to the parameters, the lines, of which there are none, and the
  -- strokes.
  rw [hledger.edges, List.mem_append, List.mem_append, List.mem_append] at he
  rcases he with ((he | he) | he) | he
  · exact .head (hledger.agrees.isHead (placed_headed root e he))
  · obtain ⟨hleaves, henters⟩ := hopening e he
    refine .ending ?_ henters
    rw [List.map_append]
    exact List.mem_append_left _ hleaves
  · rw [linesOf, h.lines] at he
    exact absurd he List.not_mem_nil
  · obtain ⟨s, hs, rfl⟩ := List.mem_map.mp he
    cases mem_strokes.mp (Stroke.mem_of_mem_drawn hs) with
    | sequence pair plain => exact .sequence pair
    | head kept => exact .arm kept rfl
    | main kept leads =>
      rw [forkTarget_ofRoot h] at leads
      exact .ending (hupper (hfork kept).question) (hlower leads)
    | direct kept none leads =>
      rw [forkTarget_ofRoot h] at leads
      exact .ending (hupper (hfork kept).question) (hlower leads)
    | rejoin kept ends leads moves =>
      rw [forkTarget_ofRoot h] at leads
      exact .ending (hupper ((hfork kept).branchEnd _ ends)) (hlower leads)
    | emptyArm kept none leads =>
      rw [armTarget_ofRoot h] at leads
      exact .ending (hupper (harm kept).id) (hlower leads)
    | armRejoin kept ends leads moves =>
      rw [armTarget_ofRoot h] at leads
      exact .ending (hupper ((harm kept).armEnd _ ends)) (hlower leads)

/-! ## Every edge leads to a node behind -/

end Draft

/-- Posts one behind the other. -/
theorem Diagram.precedes_of_posts {d : Diagram} {u v : Post} (h : [u, v].Sublist d.posts) :
    d.Precedes u.id v.id := by
  rw [Precedes, Draft.map_id_eq_posts]
  exact h.map Post.id

/-- What stands before another node stays before it. -/
theorem Diagram.Precedes.mono {d e : Diagram} (hx : d.posts <:+: e.posts) {u v : String}
    (h : d.Precedes u v) : e.Precedes u v := by
  rw [Precedes, Draft.map_id_eq_posts] at h ⊢
  exact h.trans (hx.sublist.map Post.id)

/-- A question stands before the head of its branch. -/
theorem Diagram.HeadsBranch.precedes {d : Diagram} {question last first : String}
    (h : d.HeadsBranch question last first) : d.Precedes question first := by
  obtain ⟨before, asked, between, head, after, hposts, rfl, rfl, -⟩ := h
  refine precedes_of_posts ?_
  rw [hposts]
  refine .trans (.cons_cons asked ?_) (List.sublist_append_right _ _)
  exact List.singleton_sublist.mpr (List.mem_append_right _ List.mem_cons_self)

namespace Draft

/-- What is linked in a column are nodes of the column, one behind the other. -/
theorem Registry.sublist_of_mem_columnPairs {d : Draft} (hd : d.Registry) {p : String × String}
    (hp : p ∈ d.columnPairs) : ∃ c, [p.1, p.2].Sublist (d.columnIds c) := by
  obtain ⟨⟨c, ids⟩, hm, hp⟩ := List.mem_flatMap.mp hp
  refine ⟨c, ?_⟩
  rw [columnIds, (Table.get?_eq_some_iff hd.columns_nodup).mpr hm]
  exact sublist_of_mem_neighbours hp

/-- A choice stands before its arms. -/
theorem ArmRun.precedes {P : Outline → Prop} {drafts : List Draft} {arm : Arm} {o : Outline}
    {column : Nat} {opened closed : Draft} (h : ArmRun P drafts arm o column opened closed) :
    opened.diagram.Precedes arm.choice arm.id := by
  obtain ⟨before, horigins, choice, hchoice, hid, -⟩ := h.head
  rw [← hid]
  refine Diagram.precedes_of_posts (v := ⟨arm.id, arm.kind.nodeKind, column⟩) ?_
  rw [Diagram.posts_eq_origins, horigins, List.map_append]
  exact (List.singleton_sublist.mpr (List.mem_map_of_mem hchoice)).append (.refl _)

/-- Every edge of an unguided root leads to a node behind the one that it leaves. -/
theorem ofRoot_precedes {root : Block} (h : root.Unguided) :
    ∀ e ∈ (ofRoot root).diagram.edges, (ofRoot root).diagram.Precedes e.leaves e.enters := by
  intro e he
  have hregistry := registry_ofRoot root
  obtain ⟨front, back, hframed, hopening⟩ := ofRoot_framed h
  cases hframed.descends h hopening e he with
  | head isHead =>
    obtain ⟨kept, ends, heads⟩ := isHead
    exact heads.precedes
  | sequence pair =>
    -- A column lists its nodes in the order of the diagram.
    obtain ⟨c, hc⟩ := hregistry.sublist_of_mem_columnPairs pair
    rw [hregistry.columns c] at hc
    exact hc.trans (List.filter_sublist.map Node.id)
  | arm kept ends =>
    obtain ⟨o, column, opened, closed, hrun⟩ := keptArm_ofRoot kept
    -- The arm was entered last in a draft that had its choice already.
    obtain ⟨hleaves, henters⟩ := Prod.mk.inj ends
    rw [hleaves, henters]
    exact hrun.precedes.mono (infix_posts_ofRoot hrun.opened_mem)
  | ending leaves enters =>
    rw [Diagram.Precedes, map_id_eq_posts, hframed.posts, List.map_append]
    exact (List.singleton_sublist.mpr leaves).append (List.singleton_sublist.mpr enters)

end Draft

end Flowchart
