import Flowchart.Proofs.Draft.Keeping
import Flowchart.Proofs.Draft.MadeIds
import Flowchart.Proofs.Root.Contents

/-!
# Loops are brackets

The icon of a loop with a body and the icon that closes it name each other, and what the body has
put into the diagram stands between them. `Bracketed` says that of a list of nodes: an icon that
opens a loop has its closing icon further on, with a list of the same kind in between.

Placing blocks puts such a list behind the nodes that are there (`placeIcon_brackets`). The order
that counts is that of the diagram. As a loop and its closing icon share a column, every column is
bracketed as well (`Bracketed.filter`), though a branch inside the loop may put nodes into it.
-/

namespace Flowchart

/-- A node as far as the closing of loops reads it or notes something on it. -/
structure LoopSign extends Origin where
  /-- What is noted on the icon of a loop when the loop is closed. -/
  loopEnd : Option Value
  /-- What is noted on an icon that closes a loop. -/
  loop : Option Value

/-- A node as far as the closing of loops is concerned. -/
def Node.loopSign (n : Node) : LoopSign :=
  ⟨n.origin, n.attributes.get? "loop_end", n.attributes.get? "loop"⟩

/-- The nodes of a diagram as far as the closing of loops is concerned. -/
def Diagram.loopSigns (d : Diagram) : List LoopSign := d.nodes.map Node.loopSign

/-- A node is the icon of a loop whose body holds a block. -/
def Origin.OpensLoop (origin : Origin) : Prop :=
  origin.kind = .forEach ∧ origin.block.blocks ≠ []

/-- Whether a node opens a loop can be read off its kind and block. -/
instance (origin : Origin) : Decidable origin.OpensLoop :=
  inferInstanceAs (Decidable (_ ∧ _))

/-- A loop and the icon that closes it name each other and stand in one column. -/
structure LoopSign.ClosedBy (s t : LoopSign) : Prop where
  /-- The second node closes a loop. -/
  kind : t.kind = .loopEnd
  /-- Both stand in the same column. -/
  column : t.column = s.column
  /-- The first node names the second one. -/
  loopEnd : s.loopEnd = some (.text t.id)
  /-- The second node names the first one. -/
  loop : t.loop = some (.text s.id)

/-- The icon that closes a loop opens none. -/
theorem LoopSign.ClosedBy.not_opensLoop {s t : LoopSign} (h : s.ClosedBy t) : ¬ t.OpensLoop :=
  fun hopens => NodeKind.noConfusion (h.kind.symm.trans hopens.1)

/-! ## Brackets -/

/-- Loops are closed in the order in which brackets are: `R` relates a loop to the icon that closes
it, and between the two stands a bracketed list. -/
inductive Bracketed (R : LoopSign → LoopSign → Prop) : List LoopSign → Prop
  /-- No nodes. -/
  | nil : Bracketed R []
  /-- A node that opens no loop, before nodes that are bracketed. -/
  | icon {s : LoopSign} {ss : List LoopSign} (plain : ¬ s.OpensLoop) (rest : Bracketed R ss) :
      Bracketed R (s :: ss)
  /-- A loop with its body, the node that closes it, and what stands behind. -/
  | loop {s t : LoopSign} {inner rest : List LoopSign} (closed : R s t) (body : Bracketed R inner)
      (behind : Bracketed R rest) : Bracketed R (s :: inner ++ t :: rest)

namespace Bracketed

variable {R Q : LoopSign → LoopSign → Prop} {ss ts : List LoopSign}

/-- One bracketed list behind another one. -/
theorem append (h : Bracketed R ss) (k : Bracketed R ts) : Bracketed R (ss ++ ts) := by
  induction h with
  | nil => exact k
  | icon plain _ ih => exact .icon plain ih
  | loop closed body _ _ ih =>
    rw [List.append_assoc, List.cons_append]
    exact .loop closed body ih

/-- Nodes none of which opens a loop. -/
theorem of_plain (h : ∀ s ∈ ss, ¬ s.OpensLoop) : Bracketed R ss := by
  induction ss with
  | nil => exact .nil
  | cons s ss ih =>
    exact .icon (h s List.mem_cons_self) (ih fun t ht => h t (List.mem_cons_of_mem _ ht))

/-- What is known of a loop and its closing icon may be weakened. -/
theorem mono (hR : ∀ s t, R s t → Q s t) (h : Bracketed R ss) : Bracketed Q ss := by
  induction h with
  | nil => exact .nil
  | icon plain _ ih => exact .icon plain ih
  | loop closed _ _ ihbody ih => exact .loop (hR _ _ closed) ihbody ih

/-- A choice of nodes that takes a loop together with its closing icon stays bracketed. -/
theorem filter {p : LoopSign → Bool} (hR : ∀ s t, R s t → p t = p s)
    (h : Bracketed R ss) : Bracketed R (ss.filter p) := by
  induction h with
  | nil => exact .nil
  | @icon s ss plain _ ih =>
    rw [List.filter_cons]
    split
    · exact .icon plain ih
    · exact ih
  | @loop s t inner rest closed _ _ ihbody ih =>
    rw [List.filter_append, List.filter_cons, List.filter_cons, hR s t closed]
    split
    · exact .loop closed ihbody ih
    · exact ihbody.append ih

/-- A loop of a bracketed list is closed there. -/
theorem exists_closing (hR : ∀ s t, R s t → ¬ t.OpensLoop) (h : Bracketed R ss) :
    ∀ s ∈ ss, s.OpensLoop → ∃ t ∈ ss, R s t := by
  induction h with
  | nil => exact fun _ hs => absurd hs List.not_mem_nil
  | icon plain _ ih =>
    intro s hs hopens
    rcases List.mem_cons.mp hs with rfl | hs
    · exact absurd hopens plain
    · obtain ⟨t, ht, hst⟩ := ih s hs hopens
      exact ⟨t, List.mem_cons_of_mem _ ht, hst⟩
  | @loop s t inner rest closed _ _ ihbody ih =>
    intro x hx hopens
    rcases List.mem_append.mp hx with hx | hx
    · rcases List.mem_cons.mp hx with rfl | hx
      · exact ⟨t, List.mem_append_right _ List.mem_cons_self, closed⟩
      · obtain ⟨y, hy, hxy⟩ := ihbody x hx hopens
        exact ⟨y, List.mem_append_left _ (List.mem_cons_of_mem _ hy), hxy⟩
    · rcases List.mem_cons.mp hx with rfl | hx
      · exact absurd hopens (hR _ _ closed)
      · obtain ⟨y, hy, hxy⟩ := ih x hx hopens
        exact ⟨y, List.mem_append_right _ (List.mem_cons_of_mem _ hy), hxy⟩

end Bracketed

namespace Draft

/-! ## One operation -/

/-- A change of a member seen through a view that the change can be told in. -/
theorem map_changeFirst_view {α β : Type} (view : α → β) (viewTest : β → Bool) (viewChange : β → β)
    {test : α → Bool} {change : α → α} (htest : ∀ a, test a = viewTest (view a))
    (hchange : ∀ a, view (change a) = viewChange (view a)) (as : List α) :
    (changeFirst test change as).map view = changeFirst viewTest viewChange (as.map view) := by
  induction as with
  | nil => rfl
  | cons a as ih =>
    rw [changeFirst, List.map_cons, changeFirst, htest]
    split
    · rw [List.map_cons, hchange]
    · rw [List.map_cons, ih]

/-- The member that is changed is the first one that passes the test. -/
theorem changeFirst_append_cons {α : Type} {test : α → Bool} (change : α → α) {before : List α}
    (hbefore : ∀ b ∈ before, test b = false) {a : α} (ha : test a = true) (after : List α) :
    changeFirst test change (before ++ a :: after) = before ++ change a :: after := by
  induction before with
  | nil => rw [List.nil_append, changeFirst, if_pos ha, List.nil_append]
  | cons b before ih =>
    rw [List.cons_append, changeFirst, hbefore b List.mem_cons_self, if_neg Bool.false_ne_true,
      ih fun x hx => hbefore x (List.mem_cons_of_mem _ hx), List.cons_append]

/-- Entering a node puts its sign behind the others. -/
theorem loopSigns_enter (d : Draft) (node : Node) :
    (d.enter node .back).diagram.loopSigns = d.diagram.loopSigns ++ [node.loopSign] := by
  obtain ⟨aliases, -, he⟩ := enter_eq d node .back
  rw [he]
  unfold Diagram.loopSigns
  dsimp only
  rw [Placement.map_add]
  rfl

/-- Attributes that have nothing to do with loops. -/
theorem loopSigns_setAttribute (d : Draft) (id : String) {key : String} (value : Value)
    (loopEnd : key ≠ "loop_end") (loop : key ≠ "loop") :
    (d.setAttribute id key value).diagram.loopSigns = d.diagram.loopSigns := by
  refine map_changeFirst (fun n => ?_) _
  rw [Node.loopSign, Table.get?_put, Table.get?_put, if_neg loopEnd, if_neg loop]
  rfl

/-- Keeping a question notes nothing about loops. -/
theorem loopSigns_keepFork (d : Draft) (a : Answer) (branchEnd : Option String)
    (summary : List (String × Value)) :
    (d.keepFork a branchEnd summary).diagram.loopSigns = d.diagram.loopSigns := by
  have hkeys : ∀ side : Side, side.key ≠ "loop_end" ∧ side.key ≠ "loop" := by
    rintro (_ | _) <;> decide
  exact loopSigns_setAttribute (d.putFork a branchEnd) a.question (.object summary)
    (hkeys a.side).1 (hkeys a.side).2

/-- Keeping the target of a choice notes nothing about loops. -/
theorem loopSigns_keepChoiceNext (d : Draft) (choice : String) (next : Option String)
    (span : Span) :
    (d.keepChoiceNext choice next span).diagram.loopSigns = d.diagram.loopSigns := by
  obtain ⟨choiceNexts, he⟩ := keepChoiceNext_eq d choice next span
  rw [he]

/-- Closing a branch notes nothing about loops. -/
theorem loopSigns_closeBranch (d : Draft) (a : Answer) (column before : Nat) :
    (d.closeBranch a column before).diagram.loopSigns = d.diagram.loopSigns := by
  unfold closeBranch
  split
  · rfl
  · rw [loopSigns_keepFork]
    unfold linkBranch
    split <;> rfl

/-- Closing a loop puts the closing icon behind all others and notes it on the loop. -/
theorem loopSigns_closeLoop {d : Draft} {s : LoopSign} {before inner : List LoopSign}
    (split : d.diagram.loopSigns = before ++ s :: inner) (new : ∀ b ∈ before, b.id ≠ s.id) :
    (d.closeLoop s.id s.column).diagram.loopSigns =
      before ++ { s with loopEnd := some (.text (d.loopEndId s.id)) } :: inner ++
        [(d.loopEndNode s.id s.column).loopSign] := by
  have hfree : d.hasNode (d.loopEndNode s.id s.column).id = false := hasNode_loopEndId d s.id
  rw [closeLoop, register_of_free hfree]
  have hentered := loopSigns_enter d (d.loopEndNode s.id s.column)
  have hid : (d.loopEndNode s.id s.column).id = d.loopEndId s.id := rfl
  rw [split, List.append_assoc, List.cons_append] at hentered
  rw [hid]
  generalize d.enter (d.loopEndNode s.id s.column) .back = entered at hentered
  -- The sign of the loop is changed as its icon is.
  have hset : (entered.setAttribute s.id "loop_end" (.text (d.loopEndId s.id))).diagram.loopSigns =
      changeFirst (·.id = s.id)
        (fun x => { x with loopEnd := some (.text (d.loopEndId s.id)) })
        entered.diagram.loopSigns := by
    refine map_changeFirst_view Node.loopSign (fun x => x.id = s.id)
      (fun x => { x with loopEnd := some (.text (d.loopEndId s.id)) }) (fun _ => rfl)
      (fun n => ?_) _
    rw [Node.loopSign, Table.get?_put, Table.get?_put, if_pos rfl, if_neg (by decide)]
    rfl
  rw [hset, hentered, changeFirst_append_cons _ (fun b hb => decide_eq_false (new b hb))
    (decide_eq_true rfl), List.append_assoc, List.cons_append]

/-! ## Lists of brackets -/

/-- The body of a loop was placed between two drafts: the icon of the loop was entered last in the
first one, and the closing icon goes right behind what the other one holds. -/
structure LoopRun (P : Outline → Prop) (D : Draft → Prop) (s t : LoopSign) (o : Outline)
    (opened closed : Draft) : Prop where
  /-- The loop is one of the outlines. -/
  own : P o
  /-- Its block is that of the first node. -/
  block : o.block = s.block
  /-- The draft in which its icon has been entered. -/
  opened_known : D opened
  /-- The draft in which its body has been placed. -/
  closed_known : D closed
  /-- The draft in which it has been closed. -/
  behind_known : D (closed.closeLoop s.id s.column)
  /-- Its icon is the last one when its body is placed. -/
  head : ∃ before, opened.diagram.origins = before ++ [s.toOrigin]
  /-- Placing its body leads from the first of these drafts to the second. -/
  placed : closed = placeAll o.children s.column opened
  /-- The node that closes it comes behind its body. -/
  last : (closed.closeLoop s.id s.column).diagram.origins =
    closed.diagram.origins ++ [t.toOrigin]

/-- A loop and its closing icon name each other, and the body of the loop was placed in between. -/
def Closes (P : Outline → Prop) (D : Draft → Prop) (s t : LoopSign) : Prop :=
  s.ClosedBy t ∧ ∃ o opened closed, LoopRun P D s t o opened closed

/-- A bracketed list of nodes is put behind those that are there. -/
def AddsBrackets (P : Outline → Prop) (D : Draft → Prop) (d e : Draft) : Prop :=
  ∃ new, e.diagram.loopSigns = d.diagram.loopSigns ++ new ∧ Bracketed (Closes P D) new

section

variable {P : Outline → Prop} {D : Draft → Prop} {d e f : Draft}

/-- A change that leaves the signs of loops as they are adds no bracket. -/
theorem addsBrackets_of_same (h : e.diagram.loopSigns = d.diagram.loopSigns) :
    AddsBrackets P D d e :=
  ⟨[], h.trans (List.append_nil _).symm, .nil⟩

/-- Brackets that are added one after the other are added together. -/
theorem AddsBrackets.trans (h : AddsBrackets P D d e) (k : AddsBrackets P D e f) :
    AddsBrackets P D d f := by
  obtain ⟨new, hnew, hbrackets⟩ := h
  obtain ⟨more, hmore, hothers⟩ := k
  exact ⟨new ++ more, by rw [hmore, hnew, List.append_assoc], hbrackets.append hothers⟩

/-- Entering an icon that opens no loop. -/
theorem addsBrackets_enter (d : Draft) {node : Node} (plain : ¬ node.origin.OpensLoop) :
    AddsBrackets P D d (d.enter node .back) :=
  ⟨[node.loopSign], loopSigns_enter d node, .icon plain .nil⟩

/-- The origins of a diagram by its signs. -/
theorem origins_eq_loopSigns (d : Diagram) : d.origins = d.loopSigns.map LoopSign.toOrigin := by
  rw [Diagram.loopSigns, List.map_map]
  rfl

end

/-- A loop with a body: its icon, what the body puts behind it, and the closing icon. -/
theorem addsBrackets_loop {P : Outline → Prop} {D : Draft → Prop} {d : Draft} (hd : d.Registry)
    {o : Outline} {node : Node} (own : P o)
    (free : d.hasNode node.id = false) (block : node.block = o.block)
    (opened : D (d.enter node .back))
    (closed : D (placeAll o.children node.column (d.enter node .back)))
    (behind : D ((placeAll o.children node.column (d.enter node .back)).closeLoop node.id
      node.column))
    (body : AddsBrackets P D (d.enter node .back)
      (placeAll o.children node.column (d.enter node .back))) :
    AddsBrackets P D d ((placeAll o.children node.column (d.enter node .back)).closeLoop node.id
      node.column) := by
  obtain ⟨inner, hinner, hbrackets⟩ := body
  have hhead : (d.enter node .back).diagram.origins = d.diagram.origins ++ [node.origin] :=
    origins_enter d node .back
  rw [loopSigns_enter, List.append_assoc, List.singleton_append] at hinner
  -- No node before the loop has its id.
  have hnew : ∀ b ∈ d.diagram.loopSigns, b.id ≠ node.id := by
    intro b hb hid
    obtain ⟨n, hn, rfl⟩ := List.mem_map.mp hb
    have hused := hd.hasNode_of_mem hn
    have hsame : n.id = node.id := hid
    rw [hsame, free] at hused
    exact Bool.noConfusion hused
  have hsigns := loopSigns_closeLoop (s := node.loopSign) hinner hnew
  generalize d.enter node .back = entered at opened closed behind hinner hhead hsigns ⊢
  generalize hplaced : placeAll o.children node.column entered = placed
    at closed behind hinner hsigns ⊢
  refine ⟨{ node.loopSign with loopEnd := some (.text (placed.loopEndId node.id)) } ::
    inner ++ [(placed.loopEndNode node.id node.column).loopSign], ?_, .loop ⟨⟨rfl, rfl, rfl, rfl⟩,
      o, entered, placed, ⟨own, block.symm, opened, closed, behind, ⟨_, hhead⟩, hplaced.symm, ?_⟩⟩
      hbrackets .nil⟩
  · exact hsigns.trans (List.append_assoc _ _ _)
  · have horigins := congrArg (List.map LoopSign.toOrigin) hsigns
    have hbefore := congrArg (List.map LoopSign.toOrigin) hinner
    rw [← origins_eq_loopSigns] at horigins hbefore
    rw [hbefore]
    refine horigins.trans ?_
    simp only [List.map_append, List.map_cons, List.map_nil]
    rfl

/-- Two drafts in a list of known ones. -/
theorem known_of_cons {D : Draft → Prop} {d e : Draft} {t u : List Draft} (he : e ∈ d :: t)
    (h : ∀ x ∈ d :: (t ++ u), D x) : ∀ x ∈ e :: u, D x := fun x hx =>
  h x (subset_trail he hx)

/-- What is placed are outlines of blocks, and the tables are right in every draft on the way. -/
structure Regular (P : Outline → Prop) (D : Draft → Prop) : Prop where
  /-- The outlines are those of their own blocks. -/
  outline : ∀ o, P o → o.block.outline = o
  /-- Ids and names are kept as they should be in every draft. -/
  registry : ∀ d, D d → d.Registry

/-! ## One block -/

/-- Placing a branch adds brackets. -/
def BracketsBranch (P : Outline → Prop) (D : Draft → Prop) (b : Branch) : Prop :=
  ∀ (a : Answer) (d : Draft), (∀ x ∈ Branch.allOf (some b), P x) →
    (∀ x ∈ d :: branchTrail b a d, D x) → AddsBrackets P D d (placeBranch b a d)

section

variable {P : Outline → Prop} {D : Draft → Prop} {o : Outline} {column : Nat} {d : Draft}

/-- Entering the icon of a block that is no loop adds brackets. -/
theorem entered_addsBrackets (plain : NodeKind.ofName o.block.name ≠ .forEach) :
    AddsBrackets P D d (d.entered o.block column) :=
  addsBrackets_enter d fun hopens => plain hopens.1

/-- Opening the column of an arm adds no bracket. -/
theorem opens_addsBrackets {isFirst : Bool} {armColumn : Nat} {opened : Draft}
    (opens : (if isFirst then (column, d) else d.openColumn) = (armColumn, opened)) :
    AddsBrackets P D d opened := by
  cases isFirst <;> (obtain ⟨-, rfl⟩ := Prod.mk.inj opens; exact addsBrackets_of_same rfl)

/-- What follows the icon of a question adds brackets when placing its branches does. -/
theorem FollowsQuestion.addsBrackets {id : String} {t : List Draft} {e : Draft}
    (h : FollowsQuestion o id d t e) (hall : ∀ x ∈ o.all, P x) (htrail : ∀ x ∈ d :: t, D x)
    (branch : ∀ side, ∀ b ∈ o.branch side, BracketsBranch P D b) : AddsBrackets P D d e := by
  cases h with
  | direct => exact addsBrackets_of_same (loopSigns_keepFork _ _ _ _)
  | both => exact addsBrackets_of_same rfl
  | only leads => exact branch _ _ leads _ _ (all_branch hall leads) htrail
  | other leads =>
    refine AddsBrackets.trans (addsBrackets_of_same rfl)
      (branch _ _ leads _ _ (all_branch hall leads) fun x hx => ?_)
    exact htrail x (List.mem_cons_of_mem _ hx)

/-- Placing a block adds brackets when placing its parts does. -/
theorem PlacesIcon.addsBrackets {t : List Draft} {r : Draft × Option String}
    (h : PlacesIcon o column d t r) (hr : Regular P D) (hall : ∀ x ∈ o.all, P x)
    (htrail : ∀ x ∈ d :: t, D x)
    (all : ∀ e, (∀ x ∈ e :: allTrail o.children column e, D x) →
      AddsBrackets P D e (placeAll o.children column e))
    (arms : ∀ choice e, (∀ x ∈ e :: armsTrail o.children choice column true [] e, D x) →
      AddsBrackets P D e (placeArms o.children choice column true [] e).1)
    (branch : ∀ side, ∀ b ∈ o.branch side, BracketsBranch P D b) : AddsBrackets P D d r.1 := by
  have own : P o := hall o (self_mem_all o)
  cases h with
  | reserved | taken => exact addsBrackets_of_same rfl
  | question new kind follows =>
    have henter : AddsBrackets P D d (d.entered o.block column) :=
      entered_addsBrackets (kind ▸ NodeKind.noConfusion)
    exact henter.trans (follows.addsBrackets hall
      (fun x hx => htrail x (List.mem_cons_of_mem _ hx)) branch)
  | @choice new kind noted next placed placedArms =>
    subst placedArms
    have henter : AddsBrackets P D d (d.entered o.block column) :=
      entered_addsBrackets (kind ▸ NodeKind.noConfusion)
    have hnext : AddsBrackets P D (d.entered o.block column) noted := by
      rw [next]
      exact addsBrackets_of_same (loopSigns_keepChoiceNext _ _ _ _)
    have harms := arms (d.iconId o.block column) noted fun x hx => htrail x
      (List.mem_cons_of_mem _ (List.mem_cons_of_mem _ (List.mem_append_left _ hx)))
    -- The children have added their brackets when the arms are kept.
    exact henter.trans (hnext.trans (harms.trans (addsBrackets_of_same rfl)))
  | loop new kind body placedAll =>
    subst placedAll
    -- The body is placed between the icon of the loop and the one that closes it.
    have hrest : ∀ x ∈ d.entered o.block column :: _, D x := fun x hx =>
      htrail x (List.mem_cons_of_mem _ hx)
    have hlast := (placeAll_expands o.children column (d.entered o.block column)
      (all_children hall)).leads.last_mem
    have hclosed := known_of_cons hlast hrest
    have hbody := all (d.entered o.block column) fun x hx =>
      hrest x (List.cons_subset_cons _ (List.subset_append_left _ _) hx)
    have hd := hr.registry d (htrail d List.mem_cons_self)
    have hfree : d.hasNode (d.iconNode o.block column).id = false := new.free
    exact addsBrackets_loop hd own hfree rfl (hrest _ List.mem_cons_self)
      (hclosed _ List.mem_cons_self)
      (hclosed _ (List.mem_cons_of_mem _ (List.mem_cons_of_mem _ List.mem_cons_self))) hbody
  | plain new question choice loop =>
    -- A loop without a body is not closed, and the outlines of its blocks say that it has none.
    dsimp only
    refine addsBrackets_enter d fun hopens => hopens.2 ?_
    have hempty : o.block.blocks.map Block.outline = [] := by
      rw [← loop hopens.1, ← congrArg Outline.children (hr.outline o own)]
      exact (outlines_eq o.block.body).symm
    exact List.map_eq_nil_iff.mp hempty

/-- Placing a child of a choice adds brackets when placing its parts does. -/
theorem PlacesChild.addsBrackets {choice : String} {isFirst : Bool} {arms more : List Arm}
    {t : List Draft} {e : Draft} (h : PlacesChild o choice column isFirst arms d t e more)
    (htrail : ∀ x ∈ d :: t, D x)
    (icon : (∀ x ∈ d :: iconTrail o column d, D x) → AddsBrackets P D d (placeIcon o column d).1)
    (body : ∀ c e, (∀ x ∈ e :: allTrail o.children c e, D x) →
      AddsBrackets P D e (placeInArm o.children c none e).1) : AddsBrackets P D d e := by
  cases h with
  | icon => exact icon htrail
  | taken named opens =>
    exact (opens_addsBrackets opens).trans (addsBrackets_of_same rfl)
  | @arm kind named armColumn opened opens free entered head placed placedBody =>
    subst placedBody
    have henter : AddsBrackets P D opened entered := by
      rw [head]
      refine addsBrackets_enter opened fun hopens => ?_
      have hkind : kind.nodeKind = .forEach := hopens.1
      cases kind <;> exact NodeKind.noConfusion hkind
    have hbody := body armColumn entered fun x hx =>
      htrail x (List.mem_cons_of_mem _ (List.mem_cons_of_mem _ hx))
    exact (opens_addsBrackets opens).trans (henter.trans hbody)

end

/-! ## The blocks of an outline -/

mutual

/-- Placing a block. -/
theorem placeIcon_brackets {P : Outline → Prop} {D : Draft → Prop} (hr : Regular P D) :
    ∀ (o : Outline) (column : Nat) (d : Draft), (∀ x ∈ o.all, P x) →
    (∀ x ∈ d :: iconTrail o column d, D x) → AddsBrackets P D d (placeIcon o column d).1
  | .mk block children yes no, column, d, hall, htrail => by
    obtain ⟨-, hchildren, -, -⟩ := all_mk hall
    refine (placeIcon_places _ column d).addsBrackets hr hall htrail
      (fun e => placeAll_brackets hr children column e hchildren)
      (fun choice e => placeArms_brackets hr children choice column true [] e hchildren)
      fun side => ?_
    cases side with
    | yes => exact placeSide_brackets hr yes
    | no => exact placeSide_brackets hr no
termination_by structural o => o

/-- Placing what a side of a question leads to, if there is such a side. -/
theorem placeSide_brackets {P : Outline → Prop} {D : Draft → Prop} (hr : Regular P D) :
    ∀ (side : Option Branch), ∀ b ∈ side, BracketsBranch P D b := by
  intro side b hb
  cases side with
  | none => exact absurd hb (Option.not_mem_none b)
  | some c =>
    obtain rfl := Option.mem_some_iff.mp hb
    exact placeBranch_brackets hr c
termination_by structural side => side

/-- Placing blocks one below the other. -/
theorem placeAll_brackets {P : Outline → Prop} {D : Draft → Prop} (hr : Regular P D) :
    ∀ (os : List Outline) (column : Nat) (d : Draft),
    (∀ x ∈ Outline.allOf os, P x) → (∀ x ∈ d :: allTrail os column d, D x) →
    AddsBrackets P D d (placeAll os column d)
  | [], _, _, _, _ => addsBrackets_of_same rfl
  | o :: os, column, d, hall, htrail => by
    obtain ⟨ho, hos⟩ := allOf_cons hall
    rw [allTrail] at htrail
    have hlast := (placeIcon_expands o column d ho).leads.last_mem
    exact (placeIcon_brackets hr o column d ho fun x hx => htrail x
        (List.cons_subset_cons _ (List.subset_append_left _ _) hx)).trans
      (placeAll_brackets hr os column _ hos (known_of_cons hlast htrail))
termination_by structural os => os

/-- Placing what an answer leads to. -/
theorem placeBranch_brackets {P : Outline → Prop} {D : Draft → Prop} (hr : Regular P D) :
    ∀ b : Branch, BracketsBranch P D b
  | .mk isWritten attributes icons => by
    intro a d hall htrail
    rw [branchTrail] at htrail
    rw [placeBranch]
    cases isWritten with
    | false => exact addsBrackets_of_same rfl
    | true =>
      simp only [Bool.not_true, Bool.false_eq_true, if_false] at htrail ⊢
      split
      · exact addsBrackets_of_same (loopSigns_keepFork _ _ _ _)
      · rename_i hicons
        rw [if_neg hicons] at htrail
        obtain ⟨t, asked, hnotes, hcolumnTrail, hcolumn⟩ := branchColumn_notes d a attributes
        rw [hcolumnTrail, hcolumn] at htrail
        rw [hcolumn]
        dsimp only at htrail ⊢
        generalize attributes.askedColumn.getD asked.nextColumn = column at htrail ⊢
        have hbody := placeInBranch_brackets hr icons a column (asked.useColumn column) hall
          fun x hx => htrail x <| by
            simp only [List.append_assoc, List.cons_append, List.nil_append]
            exact List.mem_cons_of_mem _ (List.mem_append_right _ (List.cons_subset_cons _
              (List.subset_append_left _ _) hx))
        have hopened : (asked.useColumn column).diagram.loopSigns = d.diagram.loopSigns := by
          obtain ⟨problems, rfl⟩ := hnotes.eq
          rfl
        exact (addsBrackets_of_same hopened).trans
          (hbody.trans (addsBrackets_of_same (loopSigns_closeBranch _ _ _ _)))
termination_by structural b => b

/-- Placing the blocks of a branch. -/
theorem placeInBranch_brackets {P : Outline → Prop} {D : Draft → Prop} (hr : Regular P D) :
    ∀ (os : List Outline) (a : Answer) (column : Nat) (d : Draft),
    (∀ x ∈ Outline.allOf os, P x) → (∀ x ∈ d :: inBranchTrail os a column d, D x) →
    AddsBrackets P D d (placeInBranch os a column d)
  | [], _, _, _, _, _ => addsBrackets_of_same rfl
  | o :: os, a, column, d, hall, htrail => by
    obtain ⟨ho, hos⟩ := allOf_cons hall
    rw [inBranchTrail] at htrail
    rw [placeInBranch]
    split
    · rename_i hroot
      rw [if_pos hroot] at htrail
      exact AddsBrackets.trans (addsBrackets_of_same rfl)
        (placeInBranch_brackets hr os a column _ hos fun x hx =>
          htrail x (List.mem_cons_of_mem _ hx))
    · rename_i hroot
      rw [if_neg hroot] at htrail
      have hlast := (placeIcon_expands o column d ho).leads.last_mem
      exact (placeIcon_brackets hr o column d ho fun x hx => htrail x
          (List.cons_subset_cons _ (List.subset_append_left _ _) hx)).trans
        (placeInBranch_brackets hr os a column _ hos (known_of_cons hlast htrail))
termination_by structural os => os

/-- Placing the children of a choice. -/
theorem placeArms_brackets {P : Outline → Prop} {D : Draft → Prop} (hr : Regular P D) :
    ∀ (os : List Outline) (choice : String) (column : Nat)
    (isFirst : Bool) (arms : List Arm) (d : Draft), (∀ x ∈ Outline.allOf os, P x) →
    (∀ x ∈ d :: armsTrail os choice column isFirst arms d, D x) →
    AddsBrackets P D d (placeArms os choice column isFirst arms d).1
  | [], _, _, _, _, _, _, _ => addsBrackets_of_same rfl
  | .mk block children yes no :: os, choice, column, isFirst, arms, d, hall, htrail => by
    obtain ⟨ho, hos⟩ := allOf_cons hall
    obtain ⟨own, hchildren, -, -⟩ := all_mk ho
    obtain ⟨t, e, more, hplaces, hsplit, hplaced⟩ :=
      placeArms_places (.mk block children yes no) os choice column isFirst arms d
    rw [hsplit] at htrail
    rw [hplaced]
    have hlast := (hplaces.expands own (placeIcon_expands (.mk block children yes no) column d ho)
      fun c e => placeInArm_expands children c none e hchildren).leads.last_mem
    have hchild := hplaces.addsBrackets
      (fun x hx => htrail x (List.cons_subset_cons _ (List.subset_append_left _ _) hx))
      (placeIcon_brackets hr (.mk block children yes no) column d ho)
      fun c e => placeInArm_brackets hr children c none e hchildren
    exact hchild.trans
      (placeArms_brackets hr os choice column false more e hos (known_of_cons hlast htrail))
termination_by structural os => os

/-- Placing the blocks of an arm. -/
theorem placeInArm_brackets {P : Outline → Prop} {D : Draft → Prop} (hr : Regular P D) :
    ∀ (os : List Outline) (column : Nat) (last : Option String)
    (d : Draft), (∀ x ∈ Outline.allOf os, P x) → (∀ x ∈ d :: allTrail os column d, D x) →
    AddsBrackets P D d (placeInArm os column last d).1
  | [], _, _, _, _, _ => addsBrackets_of_same rfl
  | o :: os, column, last, d, hall, htrail => by
    obtain ⟨ho, hos⟩ := allOf_cons hall
    rw [allTrail] at htrail
    rw [placeInArm]
    have hlast := (placeIcon_expands o column d ho).leads.last_mem
    exact (placeIcon_brackets hr o column d ho fun x hx => htrail x
        (List.cons_subset_cons _ (List.subset_append_left _ _) hx)).trans
      (placeInArm_brackets hr os column _ _ hos (known_of_cons hlast htrail))
termination_by structural os => os

end

/-! ## The blocks of a root -/

section

variable {P : Outline → Prop} {D : Draft → Prop}

/-- A loop over outlines adds brackets when every turn does. -/
theorem foldl_brackets {turn : Draft → Outline → Draft} {trail : Draft → Outline → List Draft}
    (hexpands : ∀ d o, (∀ x ∈ o.all, P x) → Expands P d (trail d o) (turn d o))
    (hturn : ∀ d o, (∀ x ∈ o.all, P x) → (∀ x ∈ d :: trail d o, D x) →
      AddsBrackets P D d (turn d o)) (os : List Outline) (d : Draft)
    (hall : ∀ x ∈ Outline.allOf os, P x) (htrail : ∀ x ∈ d :: foldTrail turn trail os d, D x) :
    AddsBrackets P D d (os.foldl turn d) := by
  induction os generalizing d with
  | nil => exact addsBrackets_of_same rfl
  | cons o os ih =>
    obtain ⟨ho, hos⟩ := allOf_cons hall
    rw [foldTrail] at htrail
    have hlast := (hexpands d o ho).leads.last_mem
    exact (hturn d o ho fun x hx => htrail x
        (List.cons_subset_cons _ (List.subset_append_left _ _) hx)).trans
      (ih _ hos (known_of_cons hlast htrail))

/-- Placing a block of a lane. -/
theorem placeInLane_brackets (hr : Regular P D) (lane : String) (column : Nat) (d : Draft)
    (o : Outline) (hall : ∀ x ∈ o.all, P x) (htrail : ∀ x ∈ d :: inLaneTrail lane column d o, D x) :
    AddsBrackets P D d (placeInLane lane column d o) := by
  unfold inLaneTrail at htrail
  unfold placeInLane at htrail ⊢
  split
  · exact addsBrackets_of_same rfl
  · rename_i hroot
    rw [if_neg hroot] at htrail
    exact placeIcon_brackets hr o column d hall htrail

/-- Placing the blocks of a lane. -/
theorem placeLane_brackets (hr : Regular P D) (d : Draft) (lane : Outline)
    (hall : ∀ x ∈ Outline.allOf lane.children, P x) (htrail : ∀ x ∈ d :: d.laneTrail lane, D x) :
    AddsBrackets P D d (d.placeLane lane) := by
  unfold laneTrail at htrail
  unfold placeLane
  dsimp only at htrail ⊢
  generalize lane.block.label?.getD _ = name at htrail ⊢
  have hopen : (d.laneColumn name).2.diagram = d.diagram := by
    unfold laneColumn
    split
    · rfl
    · dsimp only
      split <;> rfl
  have hlast := (laneColumn_expands P d name).leads.last_mem
  exact (addsBrackets_of_same (congrArg Diagram.loopSigns hopen)).trans
    (foldl_brackets (fun e o => placeInLane_expands name _ e)
      (placeInLane_brackets hr name _) _ _ hall (known_of_cons hlast htrail))

/-- Placing a block of the root. -/
theorem placeRootBlock_brackets (hr : Regular P D) (d : Draft) (o : Outline)
    (hall : ∀ x ∈ o.all, P x) (htrail : ∀ x ∈ d :: d.rootBlockTrail o, D x) :
    AddsBrackets P D d (d.placeRootBlock o) := by
  unfold rootBlockTrail at htrail
  unfold placeRootBlock
  split
  · rename_i hlane
    rw [if_pos hlane] at htrail
    obtain ⟨block, children, yes, no⟩ := o
    exact placeLane_brackets hr d _ (all_mk hall).2.1 htrail
  · rename_i hlane
    rw [if_neg hlane] at htrail
    split
    · exact addsBrackets_of_same rfl
    · rename_i hroot
      rw [if_neg hroot] at htrail
      exact placeIcon_brackets hr o primaryColumn d hall htrail

end

/-- What the loops of a root are known by: its outlines and the drafts in which they are placed. -/
def ClosedIn (root : Block) : LoopSign → LoopSign → Prop :=
  Closes (· ∈ Outline.allOf root.outline.children) (· ∈ initial root :: writtenTrail root)

/-- The written icons of a root are bracketed. -/
theorem written_bracketed (root : Block) :
    Bracketed (ClosedIn root) (written root).diagram.loopSigns := by
  have hr : Regular (· ∈ Outline.allOf root.outline.children)
      (· ∈ initial root :: writtenTrail root) :=
    ⟨outline_block_of_mem_allOf root.body, fun _ => registry_of_mem_writtenTrail⟩
  obtain ⟨new, hnew, hbrackets⟩ := foldl_brackets (fun d _ => placeRootBlock_expands d)
    (placeRootBlock_brackets hr) root.outline.children (initial root) (fun _ => id) fun _ => id
  rw [written, hnew]
  exact hbrackets

end Draft

end Flowchart
