import Flowchart.Proofs.Draft.Degrading
import Flowchart.Proofs.Draft.LikeEdges
import Flowchart.Proofs.Root.Terminals

/-!
# Roots that are the same but for refused questions

The blocks of a root are placed one after the other, the icons nobody writes are added, and the
edges are drawn. Each of these steps keeps drafts alike, so two roots that are the same but for
refused questions in the places of actions (`Block.RootLike`) give diagrams that look alike, and the
problems differ in as many refusals at most (`ofRoot_alike`).
-/

namespace Flowchart

/-- Two roots are the same, as far as building reads them, but for up to `k` questions in the places
of actions. -/
structure Block.RootLike (asked plain : Block) (k : Nat) (root other : Block) : Prop where
  /-- The roots have the same label. -/
  label : other.label? = root.label?
  /-- The same title is written on them. -/
  title : other.attributes.trimmed? "title" = root.attributes.trimmed? "title"
  /-- So are the same parameters. -/
  parameters : other.attributes.get? "parameters" = root.attributes.get? "parameters"
  /-- Their blocks are the same but for the question. -/
  outlines : Outline.AllLike asked plain k (Outline.ofStatements root.body)
    (Outline.ofStatements other.body)
  /-- The same decorations are attached to the same nodes. -/
  attachments : List.Forall₂ (fun b c => c.attributes.trimmed? "target" =
      b.attributes.trimmed? "target" ∧ c.span = b.span)
    (root.blocksCalled "attach") (other.blocksCalled "attach")
  /-- The notes are pinned to the same nodes. -/
  notes : List.Forall₂ (fun b c => c.attributes.text? "attaches_to" =
      b.attributes.text? "attaches_to" ∧ c.span = b.span)
    (root.blocksCalled "note") (other.blocksCalled "note")
  /-- The same lines are drawn. -/
  lines : List.Forall₂ (fun b c => c.attributes = b.attributes ∧ c.span = b.span)
    (root.blocksCalled "line") (other.blocksCalled "line")

namespace Draft

open Outline

variable {asked plain : Block} {id : String} {refusal : Refusal} {k n : Nat} {d e : Draft}

/-! ## Blocks and lanes -/

/-- A loop over outlines that are the same one by one. -/
theorem foldl_likewise {turn turn' : Draft → Outline → Draft}
    (hturn : ∀ {k : Nat} {o o' : Outline}, Outline.Like asked plain k o o' →
      LikewiseOnly refusal k (turn · o) (turn' · o'))
    {os os' : List Outline} (h : AllLike asked plain k os os') :
    LikewiseOnly refusal k (os.foldl turn ·) (os'.foldl turn' ·) := by
  induction os generalizing k os' with
  | nil =>
    cases h
    exact fun _ _ _ h => h.mono (Nat.le_add_right _ _)
  | cons o os ih =>
    cases h with
    | cons first rest count =>
      exact fun _ _ _ h => (ih rest (hturn first h)).mono (by omega)

/-- Placing a block of a lane. -/
theorem placeInLane_alike (hq : asked.Degrades plain id) (lane : String) (column : Nat)
    {o o' : Outline} (ho : Outline.Like asked plain k o o') :
    LikewiseOnly (asked.refusal id) k (placeInLane lane column · o)
      (placeInLane lane column · o') :=
  placeUnlessRootOnly_alike (ho.isRootOnly_eq hq) (placeIcon_alike hq ho)
    (.unsupportedInLane · lane) column

/-- Placing a lane. -/
theorem placeLane_alike (hq : asked.Degrades plain id) {b c : Block}
    {children others : List Outline} {yes no yes' no' : Option Branch}
    (label : c.label? = b.label?) (inside : AllLike asked plain k children others) :
    LikewiseOnly (asked.refusal id) k (placeLane · (.mk b children yes no))
      (placeLane · (.mk c others yes' no')) := by
  intro n d e h
  have hlanes : e.lanes = d.lanes := by
    obtain ⟨g, rfl, -⟩ := h
    rfl
  unfold placeLane
  simp only [Outline.block, Outline.children]
  rw [label, hlanes]
  generalize b.label?.getD _ = lane
  obtain ⟨hcolumn, hopened⟩ := h.laneColumn lane
  rw [hcolumn]
  exact foldl_likewise (placeInLane_alike hq lane _) inside hopened

/-- Placing a block of the root. -/
theorem placeRootBlock_alike (hq : asked.Degrades plain id) {o o' : Outline}
    (ho : Outline.Like asked plain k o o') :
    LikewiseOnly (asked.refusal id) k (placeRootBlock · o) (placeRootBlock · o') := by
  intro n d e h
  have hicon := (placeIcon_alike hq ho primaryColumn h).1
  obtain ⟨hroot, -⟩ := ho.isRootOnly_eq hq
  dsimp only
  rw [placeRootBlock, placeRootBlock, hroot]
  cases ho with
  -- Neither the question nor the action is a lane or waits for all icons.
  | degraded count =>
    have hasked : asked.name ≠ "lane" ∧ isRootOnly asked.name = false := by
      rw [hq.question]
      decide
    have hplain : plain.name ≠ "lane" := by
      rw [hq.action]
      decide
    have hasked' : asked.outline.block.name ≠ "lane" := hasked.1
    have hrootOnly : isRootOnly asked.outline.block.name = false := hasked.2
    have hplain' : plain.outline.block.name ≠ "lane" := hplain
    rw [if_neg hasked', if_neg hplain', hrootOnly]
    exact hicon
  | @block _ _ _ _ b c children others yes no yes' no' resembles name next inside _ _ count =>
    have hname : (Outline.mk c others yes' no').block.name =
        (Outline.mk b children yes no).block.name := name
    rw [hname]
    split
    · exact (placeLane_alike hq resembles.label?_eq inside h).mono (by omega)
    · split
      · exact h.mono (Nat.le_add_right _ _)
      · exact hicon

/-- Placing all blocks of a root. -/
theorem written_alike (hq : asked.Degrades plain id) {root other : Block}
    (h : Block.RootLike asked plain k root other) :
    Alike (asked.refusal id) k (written root) (written other) := by
  have htitle : titleOf other = titleOf root := by
    rw [titleOf, titleOf, h.title, h.label]
  have hinitial : Alike (asked.refusal id) 0 (initial root) (initial other) := by
    unfold initial
    rw [htitle, h.label]
    exact ⟨⟨[], other.attributes.remove "parameters", [], [], []⟩, rfl, rfl, .refl [] []⟩
  have hplaced := foldl_likewise (placeRootBlock_alike hq) h.outlines hinitial
  rwa [Nat.zero_add] at hplaced

/-! ## Icons that nobody writes -/

/-- The start is remembered in both. -/
theorem Alike.setStart (h : Alike refusal n d e) (start : String) :
    Alike refusal n (d.setStart start) (e.setStart start) := by
  obtain ⟨g, he, hnodes, hexplains⟩ := h.claim "start" start
  unfold Draft.setStart
  rw [he]
  exact ⟨g, rfl, hnodes, hexplains⟩

/-- The start icon is added where there is none. -/
theorem Alike.addStart (h : Alike refusal n d e) (none : d.diagram.ofKind .start = [])
    (none' : e.diagram.ofKind .start = []) : Alike refusal n d.addStart e.addStart := by
  have hnode : e.startNode = d.startNode := by
    obtain ⟨g, rfl, -⟩ := h
    rfl
  obtain ⟨entered, entered', isNew, hd, he, hregister⟩ :=
    h.exists_register (x := d.startNode) rfl rfl rfl rfl .front
  unfold Draft.addStart
  rw [none, none', hnode]
  simp only [List.head?_nil]
  rw [hd, he]
  cases isNew with
  | true => exact hregister.setStart d.startNode.id
  | false => exact hregister

/-- The end icon is added where there is none. -/
theorem Alike.addEnd (h : Alike refusal n d e) (none : d.diagram.ofKind .finish = [])
    (none' : e.diagram.ofKind .finish = []) : Alike refusal n d.addEnd e.addEnd := by
  have hnode : e.endNode = d.endNode := by
    obtain ⟨g, rfl, -⟩ := h
    rfl
  obtain ⟨entered, entered', isNew, hd, he, hregister⟩ :=
    h.exists_register (x := d.endNode) rfl rfl rfl rfl .back
  unfold Draft.addEnd
  rw [none, none', hnode]
  simp only [List.map_nil]
  rw [hd, he]
  cases isNew with
  | true => exact hregister.claim "end" d.endNode.id
  | false => exact hregister

/-- The parameters icon of the same value, in the column opened for it. -/
theorem Alike.enterParameters (h : Alike refusal n d e) (value : Value) (start : String) :
    Alike refusal n (d.enterParameters value start).1 (e.enterParameters value start).1 ∧
      (e.enterParameters value start).2 = (d.enterParameters value start).2 := by
  obtain ⟨hcolumn, hopened⟩ := h.openColumn
  unfold Draft.enterParameters
  generalize d.openColumn = x at hcolumn hopened ⊢
  generalize e.openColumn = y at hcolumn hopened ⊢
  obtain ⟨column, opened⟩ := x
  obtain ⟨column', opened'⟩ := y
  obtain rfl : column = column' := hcolumn.symm
  dsimp only at hopened ⊢
  have hbase : opened'.anchorBase = opened.anchorBase := by
    obtain ⟨g, rfl, -⟩ := hopened
    rfl
  rw [hbase]
  cases Parameters.node? value opened.anchorBase column with
  | none => exact ⟨hopened, rfl⟩
  | some node =>
    obtain ⟨entered, entered', isNew, hd, he, hregister⟩ :=
      hopened.exists_register (x := node) rfl rfl rfl rfl .back
    dsimp only
    rw [hd, he]
    cases isNew with
    | true => exact ⟨hregister.claim "parameters" node.id, rfl⟩
    | false => exact ⟨hregister, rfl⟩

/-- The parameters icon of the same value, if it is added. -/
theorem Alike.addParameters (h : Alike refusal n d e) (value : Value) :
    Alike refusal n (d.addParameters value).1 (e.addParameters value).1 ∧
      (e.addParameters value).2 = (d.addParameters value).2 := by
  have hstart : e.start = d.start := by
    obtain ⟨g, rfl, -⟩ := h
    rfl
  unfold Draft.addParameters
  rw [hstart]
  split
  · exact ⟨h, rfl⟩
  · exact ⟨h, rfl⟩
  · exact h.enterParameters _ _

/-- Placing all icons of a root, those that nobody writes included. -/
theorem placeRoot_alike (hq : asked.Degrades plain id) {root other : Block}
    (h : Block.RootLike asked plain k root other) :
    Alike (asked.refusal id) k (placeRoot root).1 (placeRoot other).1 ∧
      (placeRoot other).2 = (placeRoot root).2 := by
  have hstarted := (written_alike hq h).addStart (written_ofKind_start root)
    (written_ofKind_start other)
  have hunended : Alike (asked.refusal id) k (unended root) (unended other) ∧
      (placeRoot other).2 = (placeRoot root).2 := by
    have hedge : ∀ root, (placeRoot root).2 =
        ((written root).addStart.placeParameters root).2 := fun _ => rfl
    rw [hedge, hedge, unended, unended]
    unfold placeParameters
    rw [h.parameters]
    cases root.attributes.get? "parameters" with
    | none => exact ⟨hstarted, rfl⟩
    | some value => exact hstarted.addParameters value
  exact ⟨hunended.1.addEnd (unended_ofKind_finish root) (unended_ofKind_finish other), hunended.2⟩

/-! ## The diagram of a root -/

/-- Adding the decorations and the lines of two roots. -/
theorem Alike.decorated (h : Alike refusal n d e) {root other : Block}
    (hroot : Block.RootLike asked plain k root other) (edge : Option Edge) :
    Alike refusal n (d.decorated root edge) (e.decorated other edge) := by
  have hattached := h.foldl (fun h _ _ hb => h.attach hb.1 hb.2) hroot.attachments
  have hnoted := hattached.foldl (fun h _ _ hb => h.addNote hb.1 hb.2) hroot.notes
  exact (hnoted.linkParameters edge).foldl (fun h _ _ hb => h.drawLine hb.1 hb.2) hroot.lines

/-- Roots that are the same but for questions in the place of actions give diagrams that look
alike. -/
theorem ofRoot_alike (hq : asked.Degrades plain id) {root other : Block}
    (h : Block.RootLike asked plain k root other) :
    Alike (asked.refusal id) k (ofRoot root) (ofRoot other) := by
  obtain ⟨hplaced, hedge⟩ := placeRoot_alike hq h
  have hdraws := decorated_draws (placed_planned root) root (placeRoot root).2
  have hdraws' := decorated_draws (placed_planned other) other (placeRoot root).2
  have hflowed := (hplaced.decorated h (placeRoot root).2).flowed
    (hdraws.agrees.registry (placed_planned root).closed.registry)
    (hdraws'.agrees.registry (placed_planned other).closed.registry)
    (hdraws.agrees.asks (placed_planned root)) (hdraws'.agrees.asks (placed_planned other))
  have hroot : ∀ root, ofRoot root =
      ((placeRoot root).1.decorated root (placeRoot root).2).flowed.settleEdges := fun _ => rfl
  rw [hroot, hroot, hedge]
  exact hflowed.settleEdges

end Draft

end Flowchart
