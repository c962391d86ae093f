import Flowchart.Document
import Flowchart.Proofs.Draft.Frame
import Flowchart.Proofs.Draft.Keeping
import Flowchart.Proofs.Flow.Exits
import Flowchart.Proofs.Flow.Order

/-!
# Where the flow starts and ends

No block becomes a start or an end icon, whatever its name. So the one start icon of a diagram is the
one that is put in front of the written icons, and the one end icon is put behind all others. Either
is missing only when its id was in use before, and that is a problem (`AddedOnce`).

The end icon is known last, so what is kept of questions and arms cannot lead on from it, and it has
no neighbour behind it in its column. Only lines leave it (`terminals`).
-/

namespace Flowchart

/-- The member at the end of a list that a placement adds at. -/
def Placement.outermost? {α : Type} (p : Placement) (as : List α) : Option α :=
  match p with
  | .back => as.getLast?
  | .front => as.head?

/-- A member that has been added is the outermost one. -/
@[simp] theorem Placement.outermost?_add {α : Type} (p : Placement) (a : α) (as : List α) :
    p.outermost? (p.add a as) = some a := by
  cases p with
  | back => exact List.getLast?_concat
  | front => rfl

/-- No node stands behind the last one. -/
theorem Diagram.not_precedes_of_outermost {d : Diagram} (nodup : (d.nodes.map Node.id).Nodup)
    {n : Node} (last : Placement.back.outermost? d.nodes = some n) (target : String) :
    ¬ d.Precedes n.id target := by
  intro h
  obtain ⟨before, hnodes⟩ := List.getLast?_eq_some_iff.mp last
  rw [Precedes, hnodes, List.map_append, List.map_singleton] at h
  rw [hnodes, List.map_append, List.map_singleton] at nodup
  obtain ⟨u, v, huv, hu, hv⟩ := List.sublist_append_iff.mp h
  cases u with
  | nil =>
    have hlength := hv.length_le
    rw [← List.nil_append v, ← huv] at hlength
    exact absurd hlength (Nat.not_succ_le_self 1)
  | cons first u =>
    -- The node would stand among those before the last one as well.
    obtain ⟨rfl, -⟩ := List.cons.inj huv
    exact (List.nodup_append.mp nodup).2.2 _ (hu.subset List.mem_cons_self) _ List.mem_cons_self rfl

/-- The icon of a kind that is added under an id in the primary column. There is one at most, and it
is the outermost of all nodes and of those in its column. It is missing when the id was in use in the
draft that it was to be added to, and then that is one of the problems. -/
structure AddedOnce (before : Draft) (kind : NodeKind) (id : String) (p : Placement)
    (diagram : Diagram) (problems : List BuildProblem) : Prop where
  /-- There is at most one. -/
  once : (diagram.ofKind kind).length ≤ 1
  /-- It stands outermost in the diagram and in the primary column. -/
  outermost : ∀ n ∈ diagram.ofKind kind, n.id = id ∧ n.column = primaryColumn ∧
    p.outermost? diagram.nodes = some n ∧
    p.outermost? (diagram.nodes.filter (·.column = primaryColumn)) = some n
  /-- It is missing just when its id was in use. -/
  missing : diagram.ofKind kind = [] ↔ before.hasNode id = true
  /-- Then this is one of the problems. -/
  reported : before.hasNode id = true → ∃ first,
    (⟨.duplicateNode id first, .nowhere⟩ : BuildProblem) ∈ problems

/-- There is one icon of the kind unless an error is among the problems. -/
theorem AddedOnce.length_eq_one {before : Draft} {kind : NodeKind} {id : String} {p : Placement}
    {diagram : Diagram} {problems : List BuildProblem}
    (h : AddedOnce before kind id p diagram problems)
    (clean : ∀ problem ∈ problems, problem.fault.severity ≠ .error) :
    (diagram.ofKind kind).length = 1 := by
  have hsome : diagram.ofKind kind ≠ [] := fun hnone => by
    obtain ⟨first, hreported⟩ := h.reported (h.missing.mp hnone)
    exact clean _ hreported rfl
  have hpos := List.length_pos_iff.mpr hsome
  have hle := h.once
  omega

namespace Draft

/-! ## What is written -/

/-- The base of the ids of added icons, and the title. -/
def heading (d : Draft) : String × String := (d.anchorBase, d.diagram.title)

/-- No operation changes the base of the ids or the title. -/
theorem Step.heading_eq {d e : Draft} (h : d.Step e) : e.heading = d.heading := by
  cases h with
  | enter node p free =>
    obtain ⟨aliases, -, he⟩ := enter_eq d node p
    rw [he]
    rfl
  | claim name id known =>
    obtain ⟨aliases, -, he⟩ := claim_eq d name id
    rw [he]
    rfl
  | settle =>
    rw [settleEdges_eq]
    rfl
  | _ => rfl

/-- A passage ends with the base of the ids and the title that it starts with. -/
theorem Passage.heading_eq {d e : Draft} {t : List Draft} (h : Passage d t e) :
    e.heading = d.heading := by
  induction h with
  | done d => rfl
  | step first _ ih => exact ih.trans first.heading_eq

/-- No block of a root becomes a start or an end icon. -/
theorem written_bare (root : Block) : (written root).Bare := by
  have hinitial : (initial root).Bare := fun post (hpost : post ∈ []) =>
    absurd hpost List.not_mem_nil
  have hleads := (written_expands root).leads
  exact hleads.keeps (motive := Bare) (fun _ _ hm => hm.bare) hinitial _ hleads.last_mem

/-! ## What is added -/

/-- The draft that the end icon is added to: the written icons, the start icon and the parameters
icon are there. -/
def unended (root : Block) : Draft := ((written root).addStart.placeParameters root).1

/-- An icon of a kind that there is none of is added at one end, or its id is in use and that is
reported. Names may be claimed afterwards. -/
structure AddsIcon (d e : Draft) (icon : Node) (p : Placement) : Prop where
  /-- The icon is added, unless its id is in use. -/
  nodes : e.diagram.nodes =
    if d.hasNode icon.id then d.diagram.nodes else p.add icon d.diagram.nodes
  /-- If it is in use, this is one of the problems. -/
  reported : d.hasNode icon.id = true → ∃ first,
    (⟨.duplicateNode icon.id first, icon.block.span⟩ : BuildProblem) ∈ e.problems

/-- Registering an icon and then claiming names for it, if it was entered. -/
theorem addsIcon_register (d : Draft) (icon : Node) (p : Placement) {claims : Draft → Draft}
    (same : ∀ e : Draft, (claims e).diagram = e.diagram) :
    AddsIcon d (if (d.register icon p).2 then claims (d.register icon p).1 else
      (d.register icon p).1) icon p := by
  rcases register_cases d icon p with ⟨first, he, used⟩ | ⟨free, he⟩
  · rw [he]
    refine ⟨?_, fun _ => ⟨first, List.mem_concat_self⟩⟩
    rw [used]
    rfl
  · rw [he]
    refine ⟨?_, fun used => absurd (free.symm.trans used) Bool.noConfusion⟩
    obtain ⟨aliases, -, henter⟩ := enter_eq d icon p
    rw [free, if_pos rfl, same, henter]
    rfl

/-- Adding the start icon to a draft without one. -/
theorem addStart_addsIcon {d : Draft} (none : d.diagram.ofKind .start = []) :
    AddsIcon d d.addStart d.startNode .front := by
  have hsame : ∀ e : Draft, (e.setStart d.startNode.id).diagram = e.diagram := fun e => by
    obtain ⟨aliases, -, he⟩ := claim_eq e "start" d.startNode.id
    rw [setStart, he]
  unfold addStart
  rw [none]
  exact addsIcon_register d d.startNode .front hsame

/-- Adding the end icon to a draft without one. -/
theorem addEnd_addsIcon {d : Draft} (none : d.diagram.ofKind .finish = []) :
    AddsIcon d d.addEnd d.endNode .back := by
  have hsame : ∀ e : Draft, (e.claim "end" d.endNode.id).diagram = e.diagram := fun e => by
    obtain ⟨aliases, -, he⟩ := claim_eq e "end" d.endNode.id
    rw [he]
  unfold addEnd
  rw [none]
  exact addsIcon_register d d.endNode .back hsame

/-- Nothing but a parameters icon is added for the parameters of a root. -/
theorem exists_nodes_placeParameters (d : Draft) (root : Block) : ∃ back : List Node,
    (d.placeParameters root).1.diagram.nodes = d.diagram.nodes ++ back ∧
      ∀ n ∈ back, n.kind = .parameters := by
  have hadds := placeParameters_adds d root
  generalize d.placeParameters root = placed at hadds
  cases hadds with
  | nothing diagram aliases =>
    refine ⟨[], ?_, fun _ hn => absurd hn List.not_mem_nil⟩
    rw [List.append_nil, diagram]
  | @icon start started node free kind column block =>
    refine ⟨[node], ?_, fun n hn => List.mem_singleton.mp hn ▸ kind⟩
    obtain ⟨aliases, -, henter⟩ := enter_eq (d.useColumn d.nextColumn) node .back
    obtain ⟨claimed, -, hclaim⟩ :=
      claim_eq ((d.useColumn d.nextColumn).enter node .back) "parameters" node.id
    rw [hclaim, henter]
    rfl

/-- The icons of a kind in a diagram whose other nodes are of other kinds. -/
theorem ofKind_eq {diagram : Diagram} {icon : Node} {p : Placement} {others : List Node}
    {used : Bool} (nodes : diagram.nodes = if used then others else p.add icon others)
    (kinds : ∀ n ∈ others, n.kind ≠ icon.kind) :
    diagram.ofKind icon.kind = if used then [] else [icon] := by
  have hnone : others.filter (·.kind = icon.kind) = [] :=
    List.filter_eq_nil_iff.mpr fun n hn hk => kinds n hn (of_decide_eq_true hk)
  rw [Diagram.ofKind, nodes]
  cases used with
  | true => exact hnone
  | false =>
    rw [if_neg Bool.false_ne_true, if_neg Bool.false_ne_true, p.filter_add, hnone,
      if_pos (decide_eq_true rfl)]
    cases p <;> rfl

/-- An icon that was added to a draft without others of its kind is the only one in a diagram that
has, beside it, nodes of other kinds only. -/
theorem AddsIcon.addedOnce {d e : Draft} {icon : Node} {p : Placement} (h : AddsIcon d e icon p)
    {diagram : Diagram} {problems : List BuildProblem} {others : List Node}
    (nodes : diagram.nodes = if d.hasNode icon.id then others else p.add icon others)
    (kinds : ∀ n ∈ others, n.kind ≠ icon.kind) (problems_le : e.problems ⊆ problems)
    (column : icon.column = primaryColumn) (nowhere : icon.block.span = .nowhere) :
    AddedOnce d icon.kind icon.id p diagram problems := by
  have hkind := ofKind_eq nodes kinds
  have hreported : d.hasNode icon.id = true → ∃ first,
      (⟨.duplicateNode icon.id first, .nowhere⟩ : BuildProblem) ∈ problems := fun used => by
    obtain ⟨first, hm⟩ := h.reported used
    exact ⟨first, problems_le (nowhere ▸ hm)⟩
  cases hused : d.hasNode icon.id with
  | true =>
    rw [hused, if_pos rfl] at hkind
    refine ⟨?_, ?_, ⟨fun _ => hused, fun _ => hkind⟩, hreported⟩ <;> simp [hkind]
  | false =>
    rw [hused, if_neg Bool.false_ne_true] at hkind nodes
    have hcolumn : diagram.nodes.filter (·.column = primaryColumn) =
        p.add icon (others.filter (·.column = primaryColumn)) := by
      rw [nodes, p.filter_add, if_pos (decide_eq_true column)]
    refine ⟨by simp [hkind], fun n hn => ?_, by simp [hkind, hused], hreported⟩
    rw [hkind] at hn
    rw [List.mem_singleton.mp hn, hcolumn, nodes]
    exact ⟨rfl, column, p.outermost?_add _ _, p.outermost?_add _ _⟩

/-- A draft that is bare has no start and no end icon. -/
theorem Bare.kind_ne {d : Draft} (h : d.Bare) {n : Node} (hn : n ∈ d.diagram.nodes) :
    n.kind ≠ .start ∧ n.kind ≠ .finish := by
  obtain ⟨hstart, hend⟩ := h n.post (List.mem_map_of_mem hn)
  exact ⟨fun hk => hstart (congrArg NodeKind.name hk), fun hk => hend (congrArg NodeKind.name hk)⟩

/-! ## The diagram of a root -/

section

variable (root : Block)

/-- No icon of a start kind is written. -/
theorem written_ofKind_start : (written root).diagram.ofKind .start = [] :=
  ofKind_eq_nil fun post hpost hkind =>
    (written_bare root post hpost).1 (congrArg NodeKind.name hkind)

/-- The nodes before the end icon is added: the start icon if its id is free, the written icons, and
perhaps the parameters icon. -/
theorem exists_nodes_unended : ∃ back : List Node, (∀ n ∈ back, n.kind = .parameters) ∧
    (unended root).diagram.nodes =
      (if (written root).hasNode (written root).startNode.id then (written root).diagram.nodes
        else (written root).startNode :: (written root).diagram.nodes) ++ back := by
  obtain ⟨back, hnodes, hkinds⟩ := exists_nodes_placeParameters (written root).addStart root
  refine ⟨back, hkinds, ?_⟩
  rw [unended, hnodes, (addStart_addsIcon (written_ofKind_start root)).nodes]
  rfl

/-- No node is an end icon before that is added. -/
theorem unended_kind_ne {n : Node} (hn : n ∈ (unended root).diagram.nodes) : n.kind ≠ .finish := by
  obtain ⟨back, hkinds, hnodes⟩ := exists_nodes_unended root
  rw [hnodes, List.mem_append] at hn
  rcases hn with hn | hn
  · split at hn
    · exact ((written_bare root).kind_ne hn).2
    · rcases List.mem_cons.mp hn with rfl | hn
      · exact NodeKind.noConfusion
      · exact ((written_bare root).kind_ne hn).2
  · rw [hkinds n hn]
    exact NodeKind.noConfusion

/-- There is no end icon before it is added. -/
theorem unended_ofKind_finish : (unended root).diagram.ofKind .finish = [] :=
  List.filter_eq_nil_iff.mpr fun _ hn hk => unended_kind_ne root hn (of_decide_eq_true hk)

/-- Adding the end icon to what is there. -/
theorem unended_addsIcon :
    AddsIcon (unended root) (unended root).addEnd (unended root).endNode .back :=
  addEnd_addsIcon (unended_ofKind_finish root)

/-- The nodes of a diagram: those before the end icon was added, and this icon if its id is free. -/
theorem nodes_ofRoot : (ofRoot root).diagram.nodes =
    if (unended root).hasNode (unended root).endNode.id then (unended root).diagram.nodes
      else (unended root).diagram.nodes ++ [(unended root).endNode] :=
  (ofRoot_ledger root).agrees.nodes.trans (unended_addsIcon root).nodes

/-- The icons that nobody wrote are added one after the other, and then the edges. -/
theorem exists_passages_ofRoot :
    (∃ t, Passage (written root) t (written root).addStart) ∧
      (∃ t, Passage (written root).addStart t (unended root)) ∧
      (∃ t, Passage (unended root) t (unended root).addEnd) ∧
      ∃ t, Passage (unended root).addEnd t (ofRoot root) := by
  have hwritten := written_planned root
  have hstart := furnishes_addStart hwritten.closed.registry
  have hstarted := hstart.planned hwritten
  obtain ⟨hparameters, -⟩ := furnishes_placeParameters hstarted root
  have hend := furnishes_addEnd (hparameters.planned hstarted).closed.registry
  have hconnect := connectRoot_passage (placed_planned root).closed root (placeRoot_passage root).2
  have hplaced : (unended root).addEnd = (placeRoot root).1 := rfl
  refine ⟨hstart.passage, hparameters.passage, hend.passage, ?_⟩
  rw [hplaced]
  exact ⟨_, hconnect⟩

/-- The draft that the end icon is added to is one of those that building goes through. -/
theorem unended_mem_rootTrail : unended root ∈ initial root :: rootTrail root := by
  have hwritten := (written_expands root).passage (closed_initial root).registry
  have hclosed := hwritten.closed_last (closed_initial root)
  have hstart := hwritten.append (addStart_passage hclosed.registry)
  have hparameters := hstart.append
    (placeParameters_passage (hstart.closed_last (closed_initial root)) root).1
  refine List.mem_cons.mpr ((List.mem_cons.mp (List.mem_of_getLast? hparameters.getLast?_eq)).imp_right
    fun hm => ?_)
  exact List.mem_append_left _ (List.mem_append_left _ hm)

/-- What the diagram of a root starts with it keeps: the base of the ids and the title. -/
theorem heading_ofRoot : (written root).anchorBase = (initial root).anchorBase ∧
    (unended root).anchorBase = (initial root).anchorBase ∧
    (ofRoot root).diagram.title = (written root).diagram.title := by
  have hwritten := ((written_expands root).passage (closed_initial root).registry).heading_eq
  obtain ⟨⟨_, hstart⟩, ⟨_, hparameters⟩, ⟨_, hend⟩, _, hconnect⟩ := exists_passages_ofRoot root
  have hunended := (hstart.append hparameters).heading_eq
  have hroot := (hend.append hconnect).heading_eq
  exact ⟨(Prod.mk.inj hwritten).1, (Prod.mk.inj (hunended.trans hwritten)).1,
    (Prod.mk.inj (hroot.trans hunended)).2⟩

/-- The nodes behind the start icon: the written icons, the parameters icon and the end icon. -/
theorem exists_nodes_ofRoot : ∃ others : List Node, (∀ n ∈ others, n.kind ≠ .start) ∧
    (ofRoot root).diagram.nodes =
      if (written root).hasNode (written root).startNode.id then others
        else Placement.front.add (written root).startNode others := by
  obtain ⟨back, hkinds, hnodes⟩ := exists_nodes_unended root
  refine ⟨(written root).diagram.nodes ++ back ++
    if (unended root).hasNode (unended root).endNode.id then [] else [(unended root).endNode],
    fun n hn => ?_, ?_⟩
  · rw [List.mem_append, List.mem_append] at hn
    rcases hn with (hn | hn) | hn
    · exact ((written_bare root).kind_ne hn).1
    · rw [hkinds n hn]
      exact NodeKind.noConfusion
    · split at hn
      · exact absurd hn List.not_mem_nil
      · rw [List.mem_singleton.mp hn]
        exact NodeKind.noConfusion
  · rw [nodes_ofRoot, hnodes]
    split <;> split <;> simp [Placement.add]

/-- The start icon is the only one of its kind and the first of all. -/
theorem ofRoot_addedOnce_start :
    AddedOnce (written root) .start ((initial root).anchorBase ++ "@start") .front
      (ofRoot root).diagram (ofRoot root).problems := by
  obtain ⟨-, ⟨_, hparameters⟩, ⟨_, hend⟩, _, hconnect⟩ := exists_passages_ofRoot root
  obtain ⟨others, hkinds, hnodes⟩ := exists_nodes_ofRoot root
  have hpassage := (hparameters.append hend).append hconnect
  have hproblems := hpassage.problems_prefix
  rw [← (heading_ofRoot root).1]
  exact (addStart_addsIcon (written_ofKind_start root)).addedOnce hnodes hkinds hproblems.subset rfl
    rfl

/-- The end icon is the only one of its kind and the last of all. -/
theorem ofRoot_addedOnce_end :
    AddedOnce (unended root) .finish ((initial root).anchorBase ++ "@end") .back
      (ofRoot root).diagram (ofRoot root).problems := by
  obtain ⟨-, -, -, _, hconnect⟩ := exists_passages_ofRoot root
  have hproblems := hconnect.problems_prefix
  rw [← (heading_ofRoot root).2.1]
  exact (unended_addsIcon root).addedOnce (nodes_ofRoot root)
    (fun n hn => unended_kind_ne root hn) hproblems.subset rfl rfl

/-- The start icon shows the title. -/
theorem label_of_start {n : Node} (hn : n ∈ (ofRoot root).diagram.ofKind .start) :
    n.label = (ofRoot root).diagram.title := by
  obtain ⟨others, hkinds, hnodes⟩ := exists_nodes_ofRoot root
  have hstart := ofKind_eq hnodes hkinds
  have hkind : (written root).startNode.kind = .start := rfl
  rw [hkind] at hstart
  rw [hstart] at hn
  split at hn
  · exact absurd hn List.not_mem_nil
  · rw [List.mem_singleton.mp hn]
    exact (heading_ofRoot root).2.2.symm

/-- Nothing leads on from the end icon but lines. -/
theorem made_of_finish {n : Node} (hn : n ∈ (ofRoot root).diagram.ofKind .finish) :
    (ofRoot root).diagram.made n.id = [] := by
  have hadded := ofRoot_addedOnce_end root
  obtain ⟨hid, -, hlast, -⟩ := hadded.outermost n hn
  obtain ⟨⟨_, hstart⟩, ⟨_, hparameters⟩, -⟩ := exists_passages_ofRoot root
  have hextends := (hstart.append hparameters).extends
  -- The id of the end icon was free when everything that is kept was known.
  have hfree : (written root).hasNode n.id ≠ true := fun hused => by
    have hmissing := hadded.missing.mpr (hid ▸ hextends.hasNode _ hused)
    exact absurd (hmissing ▸ hn) List.not_mem_nil
  have hclosed := (written_planned root).closed
  have hregistry := registry_ofRoot root
  obtain ⟨hnode, hkind⟩ := List.mem_filter.mp hn
  have hothers : ∀ kind, kind ≠ .finish → ¬ (ofRoot root).HasKind n.id kind := fun kind hne hk =>
    hne (hregistry.kind_unique hk ⟨n.post, List.mem_map_of_mem hnode, rfl, of_decide_eq_true hkind⟩)
  obtain ⟨heads, opening, lines, hflow⟩ := ofRoot_flow root
  have hmade := (hflow.made (hothers _ NodeKind.noConfusion) (hothers _ NodeKind.noConfusion)
    (hothers _ NodeKind.noConfusion)).2
  refine List.eq_nil_iff_forall_not_mem.mpr fun e he => ?_
  obtain ⟨hpair | hreturns, -⟩ := (hmade e.enters).mp (List.mem_map_of_mem he)
  · -- No node stands behind it.
    obtain ⟨c, hc⟩ := hregistry.sublist_of_mem_columnPairs hpair
    rw [hregistry.columns c] at hc
    exact Diagram.not_precedes_of_outermost hregistry.nodup hlast _
      (hc.trans (List.filter_sublist.map Node.id))
  · cases hreturns with
    | branch kept ends leads node moves =>
      rw [forks_ofRoot] at kept
      exact hfree ((hclosed.forks _ _ kept).branchEnd _ ends)
    | arm kept ends leads node moves =>
      rw [arms_ofRoot] at kept
      exact hfree ((hclosed.arms _ kept).armEnd _ ends)
    | emptyArm kept none self leads node =>
      rw [arms_ofRoot] at kept
      exact hfree (self ▸ (hclosed.arms _ kept).id)

end

end Draft

open Draft

/-! ## Built diagrams -/

/-- A built diagram has one start icon and one end icon at most, whatever is written. The start icon
stands in front of all nodes and shows the title, and the end icon stands behind all nodes and only
lines leave it. Either is missing exactly when its id was in use before it was added, which is a
problem, so both are there unless an error is reported. -/
theorem build_terminals (document : List Statement) (diagram : Diagram)
    (problems : List BuildProblem) (h : Diagram.build document = (some diagram, problems)) :
    ∃ root, rootBlock? document = some root ∧
      written root ∈ contexts document ∧ unended root ∈ contexts document ∧
      AddedOnce (written root) .start ((initial root).anchorBase ++ "@start") .front diagram
        problems ∧
      AddedOnce (unended root) .finish ((initial root).anchorBase ++ "@end") .back diagram
        problems ∧
      (∀ n ∈ diagram.ofKind .start, n.label = diagram.title) ∧
      (∀ n ∈ diagram.ofKind .finish, diagram.made n.id = []) ∧
      ((∀ problem ∈ problems, problem.fault.severity ≠ .error) →
        (diagram.ofKind .start).length = 1 ∧ (diagram.ofKind .finish).length = 1) := by
  unfold Diagram.build at h
  cases hroot : rootBlock? document with
  | none =>
    rw [hroot] at h
    exact nomatch h
  | some root =>
    rw [hroot] at h
    obtain ⟨hdiagram, rfl⟩ := Prod.mk.inj h
    obtain rfl := Option.some.inj hdiagram
    have hstart := ofRoot_addedOnce_start root
    have hend := ofRoot_addedOnce_end root
    refine ⟨root, rfl, ?_, ?_, hstart, hend, fun n => label_of_start root, fun n =>
      made_of_finish root, fun hclean => ⟨hstart.length_eq_one hclean, hend.length_eq_one hclean⟩⟩
    · exact mem_contexts_of_mem_writtenTrail hroot (written_expands root).leads.last_mem
    · rw [contexts, hroot]
      exact unended_mem_rootTrail root

/-- A root whose parameters icon has the id of the end icon. -/
def takenEndSource : String :=
  "drakon \"d\" \x7b parameters = \x7b id = \"d@end\" text = \"p\" \x7d action \"a\" \x7b\x7d \x7d"

/-- There is a start icon but no end icon, and the problem names the id. -/
theorem build_terminals_taken :
    ∃ diagram problems,
      Diagram.build (Document.read takenEndSource).statements = (some diagram, problems) ∧
      diagram.nodes.map (fun n => (n.id, n.kind)) =
        [("d@start", .start), ("a", .action), ("d@end", .parameters)] ∧
      (diagram.ofKind .start).length ≤ 1 ∧ (∀ n ∈ diagram.ofKind .start, n.label = diagram.title) ∧
      diagram.ofKind .finish = [] ∧
      ∃ first, (⟨.duplicateNode "d@end" first, .nowhere⟩ : BuildProblem) ∈ problems := by
  have hbuilt : (Diagram.build (Document.read takenEndSource).statements).1.any (fun diagram =>
      diagram.nodes.map (fun n => (n.id, n.kind)) =
        [("d@start", .start), ("a", .action), ("d@end", .parameters)] ∧
      diagram.ofKind .finish = []) = true := by decide +kernel
  have hbase : (rootBlock? (Document.read takenEndSource).statements).all (fun root =>
      (initial root).anchorBase ++ "@end" = "d@end") = true := by decide +kernel
  obtain ⟨diagram, hdiagram, hbuilt⟩ := (Option.any_eq_true _ _).mp hbuilt
  obtain ⟨hnodes, hnone⟩ := of_decide_eq_true hbuilt
  obtain ⟨root, hroot, -, -, hstart, hend, hlabel, -⟩ :=
    build_terminals (Document.read takenEndSource).statements diagram _ (Prod.ext hdiagram rfl)
  rw [hroot] at hbase
  have hreported := hend.reported (hend.missing.mp hnone)
  rw [of_decide_eq_true hbase] at hreported
  exact ⟨diagram, _, Prod.ext hdiagram rfl, hnodes, hstart.once, hlabel, hnone, hreported⟩

end Flowchart
