import Flowchart.Proofs.Draft.Unread
import Flowchart.Proofs.Root.Contents

/-!
# Refused blocks

A block directly in a root or in a lane of the root can be refused: its name is reserved, its id is
in use, it must not stand in a lane, or it is a line or an attachment to a node that is not there.
Refusing a block only notes problems (`Exceeds`), whatever the block holds. As problems are never
read, building goes on as it does without the block, and what is built is the same but for these
problems (`build_without_refused`).
-/

namespace Flowchart

/-- The block as a statement. -/
def Block.statement (b : Block) : Statement := .block b.name b.labels b.body b.span

namespace Draft

/-! ## Drafts that differ by problems -/

/-- The first draft has problems of a block more than the second one, with codes from a list. Nothing
else is different. -/
def Exceeds (b : Block) (codes : List Code) (d e : Draft) : Prop :=
  ∃ (common : Draft) (earlier own : List BuildProblem), own ≠ [] ∧
    (∀ p ∈ own, p.span = b.span ∧ p.fault.code ∈ codes) ∧
    d = common.behind (earlier ++ own) ∧ e = common.behind earlier

section

variable {b : Block} {codes : List Code} {d e : Draft}

/-- Noting problems is such a difference. -/
theorem exceeds_of_eq {own : List BuildProblem} (some : own ≠ [])
    (ofBlock : ∀ p ∈ own, p.span = b.span ∧ p.fault.code ∈ codes)
    (h : d = { e with problems := e.problems ++ own }) : Exceeds b codes d e := by
  refine ⟨{ e with problems := [] }, e.problems, own, some, ofBlock, ?_, ?_⟩
  · rw [h, behind, List.append_nil]
  · rw [behind, List.append_nil]

/-- Reporting a problem of the block is such a difference. -/
theorem exceeds_report (d : Draft) {fault : BuildFault} (code : fault.code ∈ codes) :
    Exceeds b codes (d.report fault b.span) d := by
  refine exceeds_of_eq (List.cons_ne_nil ⟨fault, b.span⟩ []) (fun p hp => ?_) rfl
  rw [List.mem_singleton.mp hp]
  exact ⟨rfl, code⟩

/-- An operation that does not read problems keeps the difference. -/
theorem Exceeds.map (h : Exceeds b codes d e) (turn : Draft → Draft)
    (hturn : ∀ earlier d, turn (behind earlier d) = behind earlier (turn d)) :
    Exceeds b codes (turn d) (turn e) := by
  obtain ⟨common, earlier, own, hsome, hofBlock, rfl, rfl⟩ := h
  exact ⟨turn common, earlier, own, hsome, hofBlock, hturn _ _, hturn _ _⟩

/-- A loop whose turns do not read problems keeps the difference. -/
theorem Exceeds.foldl {α : Type} {turn : Draft → α → Draft} (h : Exceeds b codes d e)
    (hturn : ∀ earlier d a, turn (behind earlier d) a = behind earlier (turn d a)) (as : List α) :
    Exceeds b codes (as.foldl turn d) (as.foldl turn e) :=
  h.map (as.foldl turn) fun earlier _ => List.foldl_hom (behind earlier) (hturn earlier)

end

/-! ## Lines and attachments -/

/-- A line one end of which is unknown notes its problems. -/
theorem drawLine_exceeds {d : Draft} (hd : d.Registry) {b : Block}
    (unknown : (d.resolve (b.attributes.get? "from") .lineSource b.span).2 = none ∨
      (d.resolve (b.attributes.get? "to") .lineTarget b.span).2 = none) :
    Exceeds b [.unknownReference, .invalidReference] (d.drawLine b) d := by
  have hagrees := resolve_agrees hd (b.attributes.get? "from") .lineSource b.span
  -- The second end is looked up after the first one, with the same result.
  have hto := hagrees.resolve (b.attributes.get? "to") .lineTarget b.span
  obtain ⟨first, hfirst, hsome, hofBlock⟩ :=
    resolve_notes hd (b.attributes.get? "from") .lineSource b.span
  obtain ⟨second, hsecond, hsome', hofBlock'⟩ :=
    resolve_notes (hagrees.registry hd) (b.attributes.get? "to") .lineTarget b.span
  have hdrawn : d.drawLine b =
      (((d.resolve (b.attributes.get? "from") .lineSource b.span).1).resolve
        (b.attributes.get? "to") .lineTarget b.span).1 := by
    unfold drawLine
    dsimp only
    rw [hto]
    rcases unknown with h | h
    · rw [h]
    · rw [h]
      cases (d.resolve (b.attributes.get? "from") .lineSource b.span).2 <;> rfl
  rw [hto] at hsome'
  have hboth : first ++ second ≠ [] := by
    rcases unknown with h | h
    · exact List.append_ne_nil_of_left_ne_nil (hsome h) _
    · exact List.append_ne_nil_of_right_ne_nil _ (hsome' h)
  refine exceeds_of_eq hboth (fun p hp => (List.mem_append.mp hp).elim (hofBlock p) (hofBlock' p)) ?_
  rw [hdrawn, hsecond, hfirst, List.append_assoc]

/-- An attachment the target of which is unknown notes its problem. -/
theorem attach_exceeds {d : Draft} (hd : d.Registry) {b : Block}
    (unknown : (d.resolve (b.attributes.get? "target") .attachmentTarget b.span).2 = none) :
    Exceeds b [.unknownReference, .invalidReference] (d.attach b) d := by
  obtain ⟨own, he, hsome, hofBlock⟩ :=
    resolve_notes hd (b.attributes.get? "target") .attachmentTarget b.span
  refine exceeds_of_eq (hsome unknown) hofBlock ?_
  unfold attach
  dsimp only
  rw [unknown, he]

/-- A draft to which attachments, notes, the edge to the parameters and lines have been added. -/
def connected (d : Draft) (attachments notes lines : List Block) (edge : Option Edge) : Draft :=
  (lines.foldl drawLine
    ((notes.foldl addNote (attachments.foldl attach d)).linkParameters edge)).flowed.settleEdges

section

variable {placed : Draft} (hplaced : placed.Planned) {b : Block} (attachments notes : List Block)
  (edge : Option Edge)

include hplaced

/-- Connecting comes to the same without a line one end of which is unknown. -/
theorem connected_line (before after : List Block)
    (unknown : (placed.resolve (b.attributes.get? "from") .lineSource b.span).2 = none ∨
      (placed.resolve (b.attributes.get? "to") .lineTarget b.span).2 = none) :
    Exceeds b [.unknownReference, .invalidReference]
      (placed.connected attachments notes (before ++ b :: after) edge)
      (placed.connected attachments notes (before ++ after) edge) := by
  have hfurnished := furnished_draws hplaced attachments notes edge
  have hbefore := hfurnished.trans
    (foldl_drawLine_draws before (hfurnished.agrees.registry hplaced.closed.registry))
  -- What is unknown among the placed icons is still unknown when the line is drawn.
  rw [← hbefore.agrees.resolve, ← hbefore.agrees.resolve] at unknown
  have hline := drawLine_exceeds (hbefore.agrees.registry hplaced.closed.registry) unknown
  have hlines := hline.foldl drawLine_behind after
  unfold connected
  rw [List.foldl_append, List.foldl_cons, List.foldl_append]
  exact (hlines.map flowed flowed_behind).map settleEdges settleEdges_behind

/-- Connecting comes to the same without an attachment the target of which is unknown. -/
theorem connected_attachment (lines before after : List Block)
    (unknown : (placed.resolve (b.attributes.get? "target") .attachmentTarget b.span).2 = none) :
    Exceeds b [.unknownReference, .invalidReference]
      (placed.connected (before ++ b :: after) notes lines edge)
      (placed.connected (before ++ after) notes lines edge) := by
  have hbefore : Draws placed (before.foldl attach placed) [] :=
    foldl_draws_nil id _ (fun _ b h => attach_draws h b) hplaced.closed.registry
  rw [← hbefore.agrees.resolve] at unknown
  have hattach := attach_exceeds (hbefore.agrees.registry hplaced.closed.registry) unknown
  have hnotes := (hattach.foldl attach_behind after).foldl addNote_behind notes
  have hlines := (hnotes.map (linkParameters · edge) (linkParameters_behind · · edge)).foldl
    drawLine_behind lines
  unfold connected
  rw [List.foldl_append, List.foldl_cons, List.foldl_append]
  exact (hlines.map flowed flowed_behind).map settleEdges settleEdges_behind

end

/-! ## What follows when all written blocks are placed -/

/-- Adding the icons that nobody wrote, connecting, and the last check. -/
def finish (root : Block) (d : Draft) : Draft :=
  (completed root d).1.connectRoot root (completed root d).2

/-- A root is built by placing its blocks and lanes and finishing the draft. -/
theorem ofRoot_eq (root : Block) : ofRoot root = finish root (written root) := rfl

/-- Finishing a draft notes its problems behind the others. -/
theorem finish_behind (root : Block) (earlier : List BuildProblem) (d : Draft) :
    finish root (d.behind earlier) = (finish root d).behind earlier := by
  rw [finish, completed, addStart_behind, placeParameters_behind]
  dsimp only [Prod.map_fst, Prod.map_snd, id_eq]
  rw [addEnd_behind, connectRoot_behind]
  rfl

/-! ## Sites -/

/-- The name of a lane, its column and the draft in which its blocks are placed, when the draft is
the one in which the lane is reached. -/
def laneOf (d : Draft) (labels : List String) : String × Nat × Draft :=
  let name := labels.head?.getD ("lane_" ++ toString (d.lanes.length + 1))
  (name, d.laneColumn name)

end Draft

open Draft

/-- A place directly in a root, or directly in a lane of the root. -/
inductive Site where
  /-- Between statements of the root. -/
  | root (before after : List Statement)
  /-- Between statements of a lane, which stands between statements of the root. -/
  | lane (before after : List Statement) (labels : List String) (span : Span)
      (first last : List Statement)

namespace Site

/-- The body of the root with statements at the site. -/
def body (here : List Statement) : Site → List Statement
  | .root before after => before ++ here ++ after
  | .lane before after labels span first last =>
    before ++ .block "lane" labels (first ++ here ++ last) span :: after

/-- A root with statements at the site. -/
def rootWith (site : Site) (labels : List String) (span : Span) (here : List Statement) : Block :=
  ⟨"drakon", labels, site.body here, span⟩

/-- The column of the site and the draft in which it is reached; placing starts with another one. -/
def reached (start : Draft) : Site → Nat × Draft
  | .root before _ => (primaryColumn, (Outline.ofStatements before).foldl placeRootBlock start)
  | .lane before _ labels _ first _ =>
    let (name, column, d) :=
      ((Outline.ofStatements before).foldl placeRootBlock start).laneOf labels
    (column, (Outline.ofStatements first).foldl (placeInLane name column) d)

/-- What is done with a block at the site. -/
def place (start : Draft) : Site → Draft → Outline → Draft
  | .root .. => placeRootBlock
  | .lane before _ labels .. =>
    let (name, column, _) :=
      ((Outline.ofStatements before).foldl placeRootBlock start).laneOf labels
    placeInLane name column

/-- Placing the blocks behind the site. -/
def rest (start : Draft) : Site → Draft → Draft
  | .root _ after, d => (Outline.ofStatements after).foldl placeRootBlock d
  | .lane before after labels _ _ last, d =>
    let (name, column, _) :=
      ((Outline.ofStatements before).foldl placeRootBlock start).laneOf labels
    (Outline.ofStatements after).foldl placeRootBlock
      ((Outline.ofStatements last).foldl (placeInLane name column) d)

/-- Whether the site is in a lane. -/
def isInLane : Site → Bool
  | .root .. => false
  | .lane .. => true

/-- Whether a block of this name is placed as an icon at the site. -/
def takes (site : Site) (name : String) : Bool :=
  !isRootOnly name && (site.isInLane || name ≠ "lane")

end Site

/-- A block at a site of a root is refused, with the codes of the problems that it gives. -/
inductive Refused (root b : Block) : Site → List Code → Prop
  /-- Its icon is added by the library itself. -/
  | reserved (site : Site) (name : isReserved b.name = true) : Refused root b site [.reservedBlock]
  /-- Its id is that of a node when it is reached. -/
  | duplicate (site : Site) (name : isReserved b.name = false) (icon : site.takes b.name = true)
      (taken : (site.reached (initial root)).2.hasNode
        ((site.reached (initial root)).2.iconId b (site.reached (initial root)).1) = true) :
      Refused root b site [.duplicateNode]
  /-- It belongs to the root and stands in a lane. -/
  | misplaced (site : Site) (lane : site.isInLane = true) (name : isRootOnly b.name = true) :
      Refused root b site [.unsupportedBlock]
  /-- It is a line, and one of its ends is no node. -/
  | line (before after : List Statement) (name : b.name = "line")
      (unknown : ((placeRoot root).1.resolve (b.attributes.get? "from") .lineSource b.span).2 = none ∨
        ((placeRoot root).1.resolve (b.attributes.get? "to") .lineTarget b.span).2 = none) :
      Refused root b (.root before after) [.unknownReference, .invalidReference]
  /-- It is an attachment, and its target is no node. -/
  | attachment (before after : List Statement) (name : b.name = "attach")
      (unknown : ((placeRoot root).1.resolve (b.attributes.get? "target") .attachmentTarget
        b.span).2 = none) :
      Refused root b (.root before after) [.unknownReference, .invalidReference]

/-! ## Placing blocks at a site -/

/-- The outlines of statements are those of the first ones and of the others. -/
theorem ofStatements_append (body more : List Statement) :
    Outline.ofStatements (body ++ more) =
      Outline.ofStatements body ++ Outline.ofStatements more := by
  rw [outlines_eq, outlines_eq, outlines_eq, List.filterMap_append, List.map_append]

namespace Site

/-- Placing the blocks of a root is placing those before the site, those at the site, and those
behind it. -/
theorem foldl_body (site : Site) (start : Draft) (here : List Statement) :
    (Outline.ofStatements (site.body here)).foldl placeRootBlock start =
      site.rest start
        ((Outline.ofStatements here).foldl (site.place start) (site.reached start).2) := by
  cases site with
  | root before after =>
    rw [body, ofStatements_append, ofStatements_append, List.foldl_append, List.foldl_append]
    rfl
  | lane before after labels span first last =>
    have hlane : ∀ d : Draft, d.placeRootBlock (Block.outline ⟨"lane", labels,
        first ++ here ++ last, span⟩) = (Outline.ofStatements (first ++ here ++ last)).foldl
          (placeInLane (d.laneOf labels).1 (d.laneOf labels).2.1) (d.laneOf labels).2.2 :=
      fun _ => rfl
    rw [Block.outline] at hlane
    rw [body, ofStatements_append, List.foldl_append, Outline.ofStatements, List.foldl_cons, hlane,
      ofStatements_append, ofStatements_append, List.foldl_append, List.foldl_append]
    rfl

/-- Placing the blocks behind a site does not read problems. -/
theorem rest_behind (site : Site) (start : Draft) (earlier : List BuildProblem) (d : Draft) :
    site.rest start (behind earlier d) = behind earlier (site.rest start d) := by
  have hroot : ∀ (os : List Outline) (d : Draft), os.foldl placeRootBlock (behind earlier d) =
      behind earlier (os.foldl placeRootBlock d) := fun _ _ =>
    List.foldl_hom (behind earlier) (placeRootBlock_behind earlier)
  have hlane : ∀ (name : String) (column : Nat) (os : List Outline) (d : Draft),
      os.foldl (placeInLane name column) (behind earlier d) =
        behind earlier (os.foldl (placeInLane name column) d) := fun name column _ _ =>
    List.foldl_hom (behind earlier) (placeInLane_behind earlier name column)
  cases site with
  | root before after => exact hroot _ _
  | lane before after labels span first last =>
    unfold rest
    dsimp only
    rw [hlane, hroot]

/-- A block that a site takes is placed as an icon in the column of the site. -/
theorem place_eq_placeIcon {site : Site} {o : Outline} (takes : site.takes o.block.name = true)
    (start d : Draft) : site.place start d o = (placeIcon o (site.reached start).1 d).1 := by
  cases site with
  | root before after =>
    simp only [Site.takes, isInLane, Bool.and_eq_true, Bool.not_eq_true', Bool.false_or,
      decide_eq_true_eq] at takes
    obtain ⟨hroot, hlane⟩ := takes
    have hplace : (Site.root before after).place start = placeRootBlock := rfl
    rw [hplace, placeRootBlock, if_neg hlane, hroot, if_neg Bool.false_ne_true]
    rfl
  | lane before after labels span first last =>
    simp only [Site.takes, isInLane, Bool.true_or, Bool.and_true, Bool.not_eq_true'] at takes
    unfold place
    dsimp only
    rw [placeInLane, takes, if_neg Bool.false_ne_true]
    rfl

/-- A reserved block is taken as an icon, and then refused. -/
theorem takes_of_isReserved (site : Site) {name : String} (h : isReserved name = true) :
    site.takes name = true := by
  unfold isReserved at h
  rw [List.contains_iff_mem] at h
  simp only [List.mem_cons, List.not_mem_nil, or_false] at h
  cases site <;> rcases h with rfl | rfl | rfl | rfl | rfl <;> rfl

section

variable {site : Site} {b : Block} (start : Draft)

/-- A reserved block notes its problem. -/
theorem place_reserved (name : isReserved b.name = true) :
    Exceeds b [.reservedBlock] (site.place start (site.reached start).2 b.outline)
      (site.reached start).2 := by
  rw [place_eq_placeIcon (o := b.outline) (site.takes_of_isReserved name)]
  rcases placeIcon_cases b.outline (site.reached start).1 (site.reached start).2 with
    ⟨-, he⟩ | ⟨hallowed, -⟩
  · rw [he]
    exact exceeds_report _ (List.mem_singleton.mpr rfl)
  · exact Bool.noConfusion (name.symm.trans hallowed)

/-- A block whose id is in use notes its problem. -/
theorem place_duplicate (name : isReserved b.name = false) (icon : site.takes b.name = true)
    (taken : (site.reached start).2.hasNode
      ((site.reached start).2.iconId b (site.reached start).1) = true) :
    Exceeds b [.duplicateNode] (site.place start (site.reached start).2 b.outline)
      (site.reached start).2 := by
  rw [place_eq_placeIcon (o := b.outline) icon]
  rcases placeIcon_cases b.outline (site.reached start).1 (site.reached start).2 with
    ⟨hreserved, -⟩ | ⟨-, ⟨-, first, he⟩ | ⟨free, -⟩⟩
  · exact Bool.noConfusion (name.symm.trans hreserved)
  · rw [he]
    exact exceeds_report _ (List.mem_singleton.mpr rfl)
  · exact Bool.noConfusion (taken.symm.trans free)

/-- A block of the root that stands in a lane notes its problem. -/
theorem place_misplaced (lane : site.isInLane = true) (name : isRootOnly b.name = true) :
    Exceeds b [.unsupportedBlock] (site.place start (site.reached start).2 b.outline)
      (site.reached start).2 := by
  cases site with
  | root => exact nomatch lane
  | lane before after labels span first last =>
    have hplace : (Site.lane before after labels span first last).place start =
        placeInLane (((Outline.ofStatements before).foldl placeRootBlock start).laneOf labels).1
          (((Outline.ofStatements before).foldl placeRootBlock start).laneOf labels).2.1 := rfl
    have hblock : b.outline.block = b := rfl
    rw [hplace, placeInLane, hblock, if_pos name]
    exact exceeds_report _ (List.mem_singleton.mpr rfl)

end

/-! ## The same without the block -/

variable (labels : List String) (span : Span)

/-- The attributes of a root are the same without a block. -/
theorem attributes_rootWith (site : Site) (b : Block) :
    (site.rootWith labels span [b.statement]).attributes =
      (site.rootWith labels span []).attributes := by
  unfold Block.attributes Attributes.ofStatements rootWith
  cases site with
  | root before after =>
    simp [body, Block.statement, Statement.attribute?, List.filterMap_cons]
  | lane before after labels span first last =>
    simp [body, Statement.attribute?, List.filterMap_cons]

/-- The blocks of a name directly in a root are the same without a block in a lane or one of another
name. -/
theorem blocksCalled_rootWith (site : Site) {b : Block} {name : String} (lane : name ≠ "lane")
    (other : site.isInLane = true ∨ b.name ≠ name) :
    (site.rootWith labels span [b.statement]).blocksCalled name =
      (site.rootWith labels span []).blocksCalled name := by
  unfold Block.blocksCalled Block.blocks rootWith
  cases site with
  | root before after =>
    have hother : b.name ≠ name := other.resolve_left Bool.false_ne_true
    simp [body, Block.statement, Statement.block?, hother]
  | lane before after labels span first last =>
    simp [body, Statement.block?, lane.symm]

end Site

section

variable {site : Site} {b : Block} {codes : List Code} {labels : List String} {span : Span}

/-- A block that notes its problems where it is placed makes no other difference. -/
theorem ofRoot_exceeds_of_place {start : Draft}
    (hstart : start = initial (site.rootWith labels span [b.statement]))
    (h : Exceeds b codes (site.place start (site.reached start).2 b.outline) (site.reached start).2)
    (placed : site.isInLane = true ∨ isRootOnly b.name = false) :
    Exceeds b codes (ofRoot (site.rootWith labels span [b.statement]))
      (ofRoot (site.rootWith labels span [])) := by
  have hattributes := site.attributes_rootWith labels span b
  have hinitial : initial (site.rootWith labels span [b.statement]) =
      initial (site.rootWith labels span []) := initial_congr rfl hattributes
  -- The block is none of those that wait, so what is connected in the end is the same.
  have hcalled : ∀ name, isRootOnly name = true →
      (site.rootWith labels span [b.statement]).blocksCalled name =
        (site.rootWith labels span []).blocksCalled name := by
    intro name hname
    refine site.blocksCalled_rootWith labels span (fun h => ?_) (placed.imp_right fun hb h => ?_)
    · rw [h] at hname
      exact absurd hname (by decide)
    · rw [h, hname] at hb
      exact Bool.noConfusion hb
  -- The difference arises at the site and lasts to the end.
  have hwritten : Exceeds b codes (written (site.rootWith labels span [b.statement]))
      (written (site.rootWith labels span [])) := by
    have hwith := site.foldl_body start [b.statement]
    have hwithout := site.foldl_body start []
    rw [written, written, ← hinitial, ← hstart]
    exact hwith ▸ hwithout ▸ h.map (site.rest start) (site.rest_behind start)
  have hfinish : ∀ d, finish (site.rootWith labels span [b.statement]) d =
      finish (site.rootWith labels span []) d := by
    intro d
    rw [finish, finish, completed_congr hattributes]
    exact connectRoot_congr (hcalled _ rfl) (hcalled _ rfl) (hcalled _ rfl) _ _
  rw [ofRoot_eq, ofRoot_eq, hfinish]
  exact hwritten.map (finish _) (finish_behind _)

/-- A root with a line or an attachment has the same icons as without it. -/
theorem placeRoot_of_waits (before after : List Statement) (labels : List String) (span : Span)
    (b : Block) (waits : isRootOnly b.name = true) :
    placeRoot ((Site.root before after).rootWith labels span [b.statement]) =
      placeRoot ((Site.root before after).rootWith labels span []) := by
  have hattributes := (Site.root before after).attributes_rootWith labels span b
  have hinitial : initial ((Site.root before after).rootWith labels span [b.statement]) =
      initial ((Site.root before after).rootWith labels span []) := initial_congr rfl hattributes
  have hplaced : placedBlocks ((Site.root before after).rootWith labels span [b.statement]) =
      placedBlocks ((Site.root before after).rootWith labels span []) := by
    unfold placedBlocks Block.blocks Site.rootWith Site.body
    simp [Block.statement, Statement.block?, waits]
  rw [placeRoot_eq, placeRoot_eq, written_eq, written_eq, hplaced, hinitial,
    completed_congr hattributes]

/-- The blocks of a root that have the name of the one at the site. -/
theorem blocksCalled_own (before after : List Statement) (labels : List String) (span : Span)
    (b : Block) :
    ((Site.root before after).rootWith labels span [b.statement]).blocksCalled b.name =
        (before.filterMap Statement.block?).filter (·.name = b.name) ++
          b :: (after.filterMap Statement.block?).filter (·.name = b.name) ∧
      ((Site.root before after).rootWith labels span []).blocksCalled b.name =
        (before.filterMap Statement.block?).filter (·.name = b.name) ++
          (after.filterMap Statement.block?).filter (·.name = b.name) := by
  unfold Block.blocksCalled Block.blocks Site.rootWith Site.body
  constructor
  · simp [Block.statement, Statement.block?]
  · simp

/-- A root is built by placing its icons and connecting them. -/
theorem ofRoot_eq_connected (root : Block) : ofRoot root =
    (placeRoot root).1.connected (root.blocksCalled "attach") (root.blocksCalled "note")
      (root.blocksCalled "line") (placeRoot root).2 := rfl

/-- A refused block makes no difference but its problems. -/
theorem Refused.exceeds (h : Refused (site.rootWith labels span [b.statement]) b site codes) :
    Exceeds b codes (ofRoot (site.rootWith labels span [b.statement]))
      (ofRoot (site.rootWith labels span [])) := by
  -- The block adds nothing to those of other names that wait for all icons.
  have hother : ∀ before after name, isRootOnly name = true → b.name ≠ name →
      ((Site.root before after).rootWith labels span [b.statement]).blocksCalled name =
        ((Site.root before after).rootWith labels span []).blocksCalled name := by
    intro before after name hname hb
    refine Site.blocksCalled_rootWith labels span _ (fun h => ?_) (.inr hb)
    rw [h] at hname
    exact absurd hname (by decide)
  cases h with
  | reserved _ name =>
    have htakes := site.takes_of_isReserved name
    unfold Site.takes at htakes
    exact ofRoot_exceeds_of_place rfl (Site.place_reserved _ name)
      (.inr (by simpa using (Bool.and_eq_true_iff.mp htakes).1))
  | duplicate _ name icon taken =>
    have htakes := icon
    unfold Site.takes at htakes
    exact ofRoot_exceeds_of_place rfl (Site.place_duplicate _ name icon taken)
      (.inr (by simpa using (Bool.and_eq_true_iff.mp htakes).1))
  | misplaced _ lane name =>
    exact ofRoot_exceeds_of_place rfl (Site.place_misplaced _ lane name) (.inl lane)
  -- Lines and attachments are refused when the icons are placed, by what they refer to.
  | line before after name unknown =>
    have hplaced := placeRoot_of_waits before after labels span b (by rw [name]; rfl)
    obtain ⟨hwith, hwithout⟩ := blocksCalled_own before after labels span b
    rw [name] at hwith hwithout
    rw [ofRoot_eq_connected, ofRoot_eq_connected, hwith, hwithout,
      hother _ _ "attach" rfl (by simp [name]), hother _ _ "note" rfl (by simp [name]), ← hplaced]
    exact connected_line (placed_planned _) _ _ _ _ _ unknown
  | attachment before after name unknown =>
    have hplaced := placeRoot_of_waits before after labels span b (by rw [name]; rfl)
    obtain ⟨hwith, hwithout⟩ := blocksCalled_own before after labels span b
    rw [name] at hwith hwithout
    rw [ofRoot_eq_connected, ofRoot_eq_connected, hwith, hwithout,
      hother _ _ "line" rfl (by simp [name]), hother _ _ "note" rfl (by simp [name]), ← hplaced]
    exact connected_attachment (placed_planned _) _ _ _ _ _ unknown

end

/-- Building a document with a refused block directly in its root, or directly in a lane of it, ends
with the same draft as building the document without the block, but for the problems of the block: it
has some, they bear its bytes and the code of what it is refused for, and all others stand in front of
them and behind them as they do without it. -/
theorem build_without_refused (front back : List Statement) (labels : List String) (span : Span)
    (site : Site) (b : Block) (codes : List Code) (hfront : rootBlock? front = none)
    (hrefused : Refused (site.rootWith labels span [b.statement]) b site codes) :
    ∃ (d : Draft) (earlier own : List BuildProblem),
      own ≠ [] ∧ (∀ p ∈ own, p.span = b.span ∧ p.fault.code ∈ codes) ∧
      (contexts (front ++ .block "drakon" labels (site.body [b.statement]) span :: back)).getLast? =
        some { d with problems := earlier ++ own ++ d.problems } ∧
      (contexts (front ++ .block "drakon" labels (site.body []) span :: back)).getLast? =
        some { d with problems := earlier ++ d.problems } ∧
      Diagram.build (front ++ .block "drakon" labels (site.body [b.statement]) span :: back) =
        (some d.diagram, earlier ++ own ++ d.problems) ∧
      Diagram.build (front ++ .block "drakon" labels (site.body []) span :: back) =
        (some d.diagram, earlier ++ d.problems) := by
  have hroot : ∀ here, rootBlock? (front ++ .block "drakon" labels (site.body here) span :: back) =
      some (site.rootWith labels span here) := by
    intro here
    rw [rootBlock?_append, hfront]
    rfl
  have hlast : ∀ here,
      (contexts (front ++ .block "drakon" labels (site.body here) span :: back)).getLast? =
        some (ofRoot (site.rootWith labels span here)) := by
    intro here
    unfold contexts
    rw [hroot here]
    exact (ofRoot_passage _).getLast?_eq
  obtain ⟨d, earlier, own, hsome, hofBlock, hwith, hwithout⟩ := hrefused.exceeds
  refine ⟨d, earlier, own, hsome, hofBlock, ?_, ?_, ?_, ?_⟩
  · rw [hlast, hwith, behind]
  · rw [hlast, hwithout, behind]
  · rw [Diagram.build, hroot]
    dsimp only
    rw [hwith, behind]
  · rw [Diagram.build, hroot]
    dsimp only
    rw [hwithout, behind]

/-- A place in a lane, between two icons. -/
def laneSite : Site :=
  .lane [] [] ["main"] .nowhere [.block "action" ["a"] [] .nowhere]
    [.block "action" ["b"] [] .nowhere]

/-- A choice with an arm. It has the id of the icon in front of it. -/
def duplicateChoice : Block :=
  ⟨"choice", ["a"], [.block "case" ["yes"] [.block "action" ["c"] [] .nowhere] .nowhere],
    .nowhere⟩

/-- The choice is refused with all that it holds, and the diagram is that of the two icons. -/
theorem build_without_refused_choice :
    rootBlock? [] = none ∧
    Refused (laneSite.rootWith ["flow"] .nowhere [duplicateChoice.statement]) duplicateChoice laneSite
      [.duplicateNode] ∧
    (Diagram.build [.block "drakon" ["flow"] (laneSite.body [duplicateChoice.statement])
      .nowhere]).1.map (·.nodes.map Node.id) = some ["flow@start", "a", "b", "flow@end"] ∧
    ∃ (d : Draft) (earlier own : List BuildProblem),
      own ≠ [] ∧
      (∀ p ∈ own, p.span = duplicateChoice.span ∧ p.fault.code ∈ [Code.duplicateNode]) ∧
      (contexts [.block "drakon" ["flow"] (laneSite.body [duplicateChoice.statement])
        .nowhere]).getLast? = some { d with problems := earlier ++ own ++ d.problems } ∧
      (contexts [.block "drakon" ["flow"] (laneSite.body []) .nowhere]).getLast? =
        some { d with problems := earlier ++ d.problems } ∧
      Diagram.build [.block "drakon" ["flow"] (laneSite.body [duplicateChoice.statement]) .nowhere] =
        (some d.diagram, earlier ++ own ++ d.problems) ∧
      Diagram.build [.block "drakon" ["flow"] (laneSite.body []) .nowhere] =
        (some d.diagram, earlier ++ d.problems) := by
  have h : Refused (laneSite.rootWith ["flow"] .nowhere [duplicateChoice.statement]) duplicateChoice
      laneSite [.duplicateNode] :=
    .duplicate laneSite (by decide) (by decide) (by decide +kernel)
  exact ⟨rfl, h, by decide +kernel,
    build_without_refused [] [] ["flow"] .nowhere laneSite duplicateChoice _ rfl h⟩

end Flowchart
