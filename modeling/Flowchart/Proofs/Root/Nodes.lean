import Flowchart.Proofs.Draft.Keeping
import Flowchart.Proofs.Root.Coverage

/-!
# The nodes of a finished diagram

When the written blocks have been placed, a start icon, a parameters icon and an end icon may be
added, and nothing that follows adds a node. So a node of the finished diagram is added to what the
author wrote, or it is the icon of a block that stands in the root (`node_ofRoot`). If no problem
was noted, every block that stands in the root has the icon that it becomes (`depicted_ofRoot`).
-/

namespace Flowchart

/-- A node that nobody wrote: its block is synthetic and has the name of its kind. -/
def Origin.IsAdded (origin : Origin) : Prop :=
  ∃ name ∈ ["start", "parameters", "loop_end", "end"],
    origin.kind = .ofName name ∧ ∃ label, origin.block = .synthetic name label

namespace Draft

/-! ## Icons that nobody wrote -/

/-- Every new node is one that nobody wrote. -/
def Adds (d e : Draft) : Prop :=
  ∀ origin ∈ e.diagram.origins, origin ∈ d.diagram.origins ∨ origin.IsAdded

section

variable {d e f : Draft}

/-- A step that leaves the nodes as they are adds none. -/
theorem adds_of_same (h : e.diagram.origins = d.diagram.origins) : Adds d e :=
  fun _ ho => .inl (h ▸ ho)

/-- What nobody wrote is added by one of two steps. -/
theorem Adds.trans (h : Adds d e) (k : Adds e f) : Adds d f :=
  fun origin ho => (k origin ho).elim (h origin) .inr

/-- Claiming a name adds no node. -/
theorem adds_claim (d : Draft) (name id : String) : Adds d (d.claim name id) := by
  obtain ⟨aliases, -, he⟩ := claim_eq d name id
  rw [he]
  exact adds_of_same rfl

/-- Setting an attribute adds no node. -/
theorem adds_setAttribute (d : Draft) (id key : String) (value : Value) :
    Adds d (d.setAttribute id key value) := adds_of_same (origins_setAttribute d id key value)

/-- Entering a node adds that node. -/
theorem adds_enter (d : Draft) {node : Node} (p : Placement) (added : node.origin.IsAdded) :
    Adds d (d.enter node p) := by
  intro origin ho
  rw [origins_enter, (p.add_perm _ _).mem_iff, List.mem_cons] at ho
  rcases ho with rfl | ho
  · exact .inr added
  · exact .inl ho

/-- Registering a node adds it or no node. -/
theorem adds_register (d : Draft) {node : Node} (p : Placement) (added : node.origin.IsAdded) :
    Adds d (d.register node p).1 := by
  rcases register_cases d node p with ⟨first, he, -⟩ | ⟨-, he⟩
  · rw [he]
    exact adds_of_same rfl
  · rw [he]
    dsimp only
    exact adds_enter d p added

/-- Claiming an anchor adds no node. -/
theorem adds_claimAnchor (d : Draft) (id : String) (fallback : Option String) :
    Adds d (d.claimAnchor id fallback) := by
  unfold claimAnchor
  split
  · exact adds_of_same rfl
  · split
    · exact adds_claim d _ _
    · exact (adds_setAttribute d _ _ _).trans (adds_claim _ _ _)
    · exact adds_of_same rfl

/-- Remembering the start adds no node. -/
theorem adds_setStart (d : Draft) (id : String) : Adds d (d.setStart id) :=
  (adds_claim d "start" id).trans (adds_of_same rfl)

/-- A missing start is added. -/
theorem adds_addStart (d : Draft) : Adds d d.addStart := by
  have hadded : d.startNode.origin.IsAdded :=
    ⟨"start", by simp, rfl, "start", rfl⟩
  unfold addStart
  split
  · rename_i node _
    have htitle : Adds d (d.titleStart node.id) :=
      adds_of_same ((origins_setAttribute _ _ _ _).trans (origins_setLabel d _ _))
    exact (htitle.trans (adds_claimAnchor _ _ _)).trans (adds_setStart _ _)
  · dsimp only
    have hregister := adds_register d .front hadded
    generalize d.register d.startNode .front = registered at hregister ⊢
    split
    · exact hregister.trans (adds_setStart _ _)
    · exact hregister

/-- The node of the parameters is added. -/
theorem adds_placeParameters (d : Draft) (root : Block) : Adds d (d.placeParameters root).1 := by
  have hadds := placeParameters_adds d root
  generalize d.placeParameters root = placed at hadds
  cases hadds with
  | nothing diagram aliases => exact adds_of_same (congrArg Diagram.origins diagram)
  | icon started node free kind column block =>
    have hadded : node.origin.IsAdded := ⟨"parameters", by simp, kind, node.id, block⟩
    have hopen : Adds d (d.useColumn d.nextColumn) := adds_of_same rfl
    have henter := hopen.trans (adds_enter (d.useColumn d.nextColumn) .back hadded)
    exact henter.trans (adds_claim ((d.useColumn d.nextColumn).enter node .back) "parameters" node.id)

/-- A missing end is added. -/
theorem adds_addEnd (d : Draft) : Adds d d.addEnd := by
  have hadded : d.endNode.origin.IsAdded := ⟨"end", by simp, rfl, "end", rfl⟩
  have hclaims : ∀ (ids : List String) (d : Draft),
      Adds d (ids.foldl (fun d id => d.claimAnchor id none) d) := by
    intro ids
    induction ids with
    | nil => exact fun d => adds_of_same rfl
    | cons id ids ih => exact fun d => (adds_claimAnchor d id none).trans (ih _)
  unfold addEnd
  split
  · dsimp only
    have hregister := adds_register d .back hadded
    generalize d.register d.endNode .back = registered at hregister ⊢
    split
    · exact hregister.trans (adds_claim _ _ _)
    · exact hregister
  · unfold claimEnds
    exact (adds_claimAnchor d _ _).trans (hclaims _ _)

end

/-! ## From the written blocks to the finished diagram -/

variable (root : Block)

/-- A finished diagram has the written nodes and those that are added. -/
theorem adds_ofRoot : Adds (written root) (ofRoot root) := by
  have hstart := adds_addStart (written root)
  have hparameters := hstart.trans (adds_placeParameters (written root).addStart root)
  have hplaced := hparameters.trans (adds_addEnd ((written root).addStart.placeParameters root).1)
  have hsame : (ofRoot root).diagram.origins = (placeRoot root).1.diagram.origins :=
    congrArg (List.map Node.origin) (ofRoot_ledger root).agrees.nodes
  exact hplaced.trans (adds_of_same hsame)

/-- What follows when the written blocks are placed takes back no problem. -/
theorem written_problems_isPrefix : (written root).problems <+: (ofRoot root).problems := by
  obtain ⟨_, hfurnish⟩ := (placeRoot_furnishes root).1.passage
  obtain ⟨-, hedge⟩ := placeRoot_passage root
  have hconnect := connectRoot_passage (placed_planned root).closed root hedge
  exact hfurnish.problems_prefix.trans hconnect.problems_prefix

/-- The written nodes are nodes of the finished diagram. -/
theorem written_infix_origins :
    (written root).diagram.origins <:+: (ofRoot root).diagram.origins :=
  infix_origins_ofRoot (written_expands root).leads.last_mem

/-- A node of a finished diagram was added, or it is the icon of a block that stands in the root. -/
theorem node_ofRoot {n : Node} (hn : n ∈ (ofRoot root).diagram.nodes) :
    n.origin.IsAdded ∨ Accounted (Stands root) (ofRoot root).problems n.origin := by
  rcases adds_ofRoot root n.origin (List.mem_map_of_mem hn) with hwritten | hadded
  · -- The draft that building starts with has no nodes, so a written one was placed for a block.
    obtain ⟨new, he, hnew⟩ := (written_covers root).origins
    have hnone : (initial root).diagram.origins = [] := rfl
    rw [he, hnone, List.nil_append] at hwritten
    exact .inr ((hnew _ hwritten).mono (fun _ _ => id) (written_problems_isPrefix root).subset)
  · exact .inl hadded

/-! ## Lanes -/

/-- The name of a lane: its label, or one with a number. -/
def laneName (lane : Outline) (number : Nat) : String :=
  lane.block.label?.getD ("lane_" ++ toString number)

/-- The blocks of a lane are placed one after the other in one column of the lane. -/
theorem lane_turn {root : Block} {lane : Outline} (name : lane.block.name = "lane")
    (hlane : lane ∈ root.outline.children) :
    ∃ number column, ∀ x ∈ lane.children, ∃ (before : Draft) (P : Holder → Outline → Prop),
      Covers P (placeInLane (laneName lane number) column before x) (written root) := by
  obtain ⟨d, -, after, -, hafter⟩ := foldl_turn placeRootBlock_covers hlane (initial root)
  have hplace : ∃ number column opened, d.placeRootBlock lane =
      lane.children.foldl (placeInLane (laneName lane number) column) opened := by
    rw [placeRootBlock, if_pos name]
    exact ⟨_, _, _, rfl⟩
  obtain ⟨number, column, opened, hplace⟩ := hplace
  rw [hplace] at hafter
  refine ⟨number, column, fun x hx => ?_⟩
  obtain ⟨before, -, rest, -, hrest⟩ :=
    foldl_turn (placeInLane_covers (laneName lane number) column) hx opened
  exact ⟨before, _, hrest.trans hafter fun _ _ => Iff.rfl⟩

/-- The lines, attachments and notes in a lane are reported. -/
theorem reported_in_lane {lane : Outline} (name : lane.block.name = "lane")
    (hlane : lane ∈ root.outline.children) :
    ∃ number, ∀ x ∈ lane.children, isRootOnly x.block.name = true →
      ⟨.unsupportedInLane x.block.name (laneName lane number), x.block.span⟩ ∈
        (ofRoot root).problems := by
  obtain ⟨number, column, hblocks⟩ := lane_turn name hlane
  refine ⟨number, fun x hx hroot => ?_⟩
  obtain ⟨before, P, hbehind⟩ := hblocks x hx
  refine (written_problems_isPrefix root).subset (hbehind.problems.subset ?_)
  unfold placeInLane
  rw [if_pos hroot]
  exact List.mem_concat_self

/-- A block of a lane has its icon in the column of the lane, or a problem is noted of it. -/
theorem placeInLane_cases (lane : String) (column : Nat) (d : Draft) (o : Outline) :
    (∃ origin ∈ (placeInLane lane column d o).diagram.origins,
      origin.block = o.block ∧ origin.column = column) ∨
    ∃ p ∈ (placeInLane lane column d o).problems, p.span = o.block.span := by
  unfold placeInLane
  split
  · exact .inr ⟨_, List.mem_concat_self, rfl⟩
  · cases hplaced : (placeIcon o column d).2 with
    | none =>
      obtain ⟨fault, he⟩ := placeIcon_refused hplaced
      rw [he]
      exact .inr ⟨_, List.mem_concat_self, rfl⟩
    | some id =>
      obtain ⟨inner, hputs⟩ := placeIcon_puts hplaced
      exact .inl ⟨_, hputs.origins.subset (List.mem_append_right _ List.mem_cons_self), rfl, rfl⟩

/-- The blocks of a lane have their icons in one column, but for those that a problem is noted of. -/
theorem lane_ofRoot {lane : Outline} (name : lane.block.name = "lane")
    (hlane : lane ∈ root.outline.children) :
    ∃ column, ∀ x ∈ lane.children,
      (∃ origin ∈ (ofRoot root).diagram.origins,
        origin.block = x.block ∧ origin.column = column) ∨
      ∃ p ∈ (ofRoot root).problems, p.span = x.block.span := by
  obtain ⟨number, column, hblocks⟩ := lane_turn name hlane
  refine ⟨column, fun x hx => ?_⟩
  obtain ⟨before, P, hbehind⟩ := hblocks x hx
  rcases placeInLane_cases (laneName lane number) column before x with
    ⟨origin, hm, hshown⟩ | ⟨p, hp, hspan⟩
  · exact .inl ⟨origin,
      (written_infix_origins root).subset (hbehind.prefix_origins.subset hm), hshown⟩
  · exact .inr ⟨p, (written_problems_isPrefix root).subset (hbehind.problems.subset hp), hspan⟩

/-! ## Diagrams without problems -/

section

variable {root} (hclean : (ofRoot root).problems = [])
include hclean

/-- If no problem was noted in the end, none was when the written blocks were placed. -/
theorem written_problems_eq_nil : (written root).problems = [] :=
  List.prefix_nil.mp (hclean ▸ written_problems_isPrefix root)

/-- If no problem was noted, every block that stands in the root has the icon that it becomes. -/
theorem depicted_ofRoot {s : Holder} {o : Outline} (h : Stands root s o) :
    (ofRoot root).Depicted s o := by
  have hwritten := written_problems_eq_nil hclean
  cases (written_covers root).depicted hwritten s o h with
  | icon mem becomes block =>
    exact .icon ((written_infix_origins root).subset mem) becomes block
  | elsewhere root becomes => exact .elsewhere root becomes

end

end Draft

end Flowchart
