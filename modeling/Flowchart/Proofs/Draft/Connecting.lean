import Flowchart.Proofs.Draft.Placing

/-!
# The drafts that drawing the edges passes through

Behind the icons come the attachments, the notes and the edges. `connectTrail` lists the drafts on
the way, and `connectRoot_passage` shows that they are a passage from a closed draft: an edge leads
from a node to a node because the questions, the arms, the columns and the claimed names of a closed
draft do.
-/

namespace Flowchart.Draft

/-! ## The trails -/

/-- Attaching a decoration. -/
def attachTrail (d : Draft) (b : Block) : List Draft :=
  [(d.resolve (b.attributes.get? "target") .attachmentTarget b.span).1, d.attach b]

/-- Adding a note. -/
def noteTrail (d : Draft) (b : Block) : List Draft := [(d.notePin b).1, d.addNote b]

/-- Drawing a line. -/
def lineTrail (d : Draft) (b : Block) : List Draft :=
  let sourced := (d.resolve (b.attributes.get? "from") .lineSource b.span).1
  [sourced, (sourced.resolve (b.attributes.get? "to") .lineTarget b.span).1, d.drawLine b]

/-- Looking up targets: every look-up is one operation. -/
def lookupTrail {α : Type} (turn : Lookup → α → Lookup) (as : List α) (d : Draft) : List Draft :=
  foldTrail turn (fun looked a => [(turn looked a).1]) as (d, [])

/-- Looking up what questions, choices and arms go on with. -/
def targetsTrail (d : Draft) : List Draft :=
  let forked := (d.forks.foldl resolveFork (d, [])).1
  let chosen := (forked.choiceNexts.foldl resolveChoice (forked, [])).1
  lookupTrail resolveFork d.forks d ++ lookupTrail resolveChoice forked.choiceNexts forked ++
    lookupTrail resolveArm chosen.arms chosen

/-- Linking the neighbours in every column. -/
def columnsTrail (d : Draft) : List Draft :=
  foldTrail linkNeighbours (fun d pair => [d.linkNeighbours pair]) d.columnPairs d

/-- Drawing the edges of a question. -/
def questionTrail (targets : Targets) (default : Option Reference) (d : Draft) :
    String × Fork → List Draft
  | (question, fork) =>
    match targets.ofFork default question with
    | some target => [d.linkMain question fork target, d.linkFork question fork target]
    | none => []

/-- Drawing the edges of every question. -/
def forksTrail (d : Draft) (targets : Targets) (default : Option Reference) : List Draft :=
  foldTrail (linkQuestion targets default) (questionTrail targets default) d.forks d

/-- Drawing the edges of every choice. -/
def groupsTrail (d : Draft) (targets : Targets) (default : Option Reference) : List Draft :=
  foldTrail (fun d arm => d.linkArm arm (targets.ofArm default arm))
    (fun d arm => [d.linkHead arm, d.linkArm arm (targets.ofArm default arm)])
    (groupedArms d.arms) d

/-- Adding the attachments, the notes, and all edges. -/
def connectTrail (d : Draft) (root : Block) (parametersEdge : Option Edge) : List Draft :=
  let attached := (root.blocksCalled "attach").foldl attach d
  let noted := (root.blocksCalled "note").foldl addNote attached
  let opened := noted.linkParameters parametersEdge
  let lined := (root.blocksCalled "line").foldl drawLine opened
  let (resolved, targets) := lined.resolveTargets
  let sequenced := resolved.linkColumns
  let default := sequenced.defaultTarget
  let forked := sequenced.linkForks targets default
  foldTrail attach attachTrail (root.blocksCalled "attach") d ++
    foldTrail addNote noteTrail (root.blocksCalled "note") attached ++
    [opened] ++
    foldTrail drawLine lineTrail (root.blocksCalled "line") opened ++
    lined.targetsTrail ++
    resolved.columnsTrail ++
    sequenced.forksTrail targets default ++
    forked.groupsTrail targets default ++
    [(forked.linkArms targets default).settleEdges]

/-! ## References lead to nodes -/

/-- A reference is to a node, and names it. -/
structure KnowsReference (d : Draft) (reference : Reference) : Prop where
  /-- The node that it leads to is there. -/
  node : d.hasNode reference.node
  /-- Its text names that node. -/
  named : NamesNode reference.full reference.node

/-- A reference that is known stays so. -/
theorem KnowsReference.mono {d e : Draft} (hx : e.Extends d) {reference : Reference}
    (h : d.KnowsReference reference) : e.KnowsReference reference :=
  ⟨hx.hasNode _ h.node, h.named⟩

/-- The reference to a node as a whole. -/
theorem knowsReference_toNode {d : Draft} {id : String} (h : d.hasNode id) :
    d.KnowsReference (.toNode id) :=
  ⟨h, .inl rfl⟩

/-- Looking up a reference is one operation. -/
theorem resolve_step (d : Draft) (value : Option Value) (referrer : Referrer) (span : Span) :
    d.Step (d.resolve value referrer span).1 := by
  unfold resolve
  split
  · exact .report _ _
  · split
    · split
      · exact .stay
      · exact .report _ _
    · split
      · split
        · rename_i hnode
          dsimp only
          exact .claim _ _ hnode
        · exact .report _ _
      · dsimp only
        split
        · exact .stay
        · exact .report _ _

/-- A reference that is looked up is to a node, for every way to find one checks that. -/
theorem resolve_knows {d : Draft} {value : Option Value} {referrer : Referrer} {span : Span}
    {reference : Reference} (hr : (d.resolve value referrer span).2 = some reference) :
    d.KnowsReference reference := by
  unfold resolve at hr
  split at hr
  · exact absurd hr.symm (Option.some_ne_none reference)
  · split at hr
    · -- A name that has been claimed.
      split at hr
      · rename_i hnode
        rw [← Option.some.inj hr]
        exact knowsReference_toNode hnode
      · exact absurd hr.symm (Option.some_ne_none reference)
    · split at hr
      · -- The id of a node.
        split at hr
        · rename_i hnode
          rw [← Option.some.inj hr]
          exact knowsReference_toNode hnode
        · exact absurd hr.symm (Option.some_ne_none reference)
      · -- A name with an anchor.
        rename_i head anchor _
        dsimp only at hr
        split at hr
        · rename_i hnode
          rw [← Option.some.inj hr]
          exact ⟨hnode, .inr ⟨String.ofList anchor, rfl⟩⟩
        · exact absurd hr.symm (Option.some_ne_none reference)

/-- The edge between two references joins their nodes. -/
theorem KnowsReference.joins {d : Draft} {source target : Reference}
    (hs : d.KnowsReference source) (ht : d.KnowsReference target) {edge : Edge}
    (hsource : edge.source = source.full) (htarget : edge.target = target.full) :
    d.Joins edge source.node target.node :=
  ⟨hs.node, ht.node, hsource ▸ hs.named, htarget ▸ ht.named⟩

/-! ## The trails are passages -/

/-- Attaching a decoration. -/
theorem attach_passage (d : Draft) (b : Block) : Passage d (d.attachTrail b) (d.attach b) := by
  have hr := resolve_step d (b.attributes.get? "target") .attachmentTarget b.span
  unfold attachTrail attach
  refine .step hr ?_
  dsimp only
  split
  · exact Step.stay.passage
  · exact (Step.attach _).passage

/-- Looking up the node that a note is pinned to is one operation. -/
theorem notePin_step (d : Draft) (b : Block) : d.Step (d.notePin b).1 := by
  unfold notePin
  split
  · exact resolve_step d _ _ _
  · exact .stay

/-- Adding a note. -/
theorem addNote_passage (d : Draft) (b : Block) : Passage d (d.noteTrail b) (d.addNote b) :=
  .step (notePin_step d b) (Step.addNote _).passage

/-- Drawing a line. -/
theorem drawLine_passage (d : Draft) (b : Block) : Passage d (d.lineTrail b) (d.drawLine b) := by
  have hsource := resolve_step d (b.attributes.get? "from") .lineSource b.span
  have htarget := resolve_step (d.resolve (b.attributes.get? "from") .lineSource b.span).1
    (b.attributes.get? "to") .lineTarget b.span
  refine .step hsource (.step htarget (Step.passage ?_))
  unfold drawLine
  dsimp only
  split
  · rename_i source target hs ht
    -- The source was found before the target was looked up, and is still known.
    have hs' := ((resolve_knows hs).mono hsource.extends).mono htarget.extends
    have ht' := (resolve_knows ht).mono htarget.extends
    exact .link _ _ _ (hs'.joins ht' rfl rfl)
  · exact .stay

/-- Every entry of a table is a reference to a node. -/
def KnowsTable (d : Draft) (targets : Table String Reference) : Prop :=
  ∀ id reference, (id, reference) ∈ targets → d.KnowsReference reference

/-- The entries of a table stay references to nodes. -/
theorem KnowsTable.mono {d e : Draft} (hx : e.Extends d) {targets : Table String Reference}
    (h : d.KnowsTable targets) : e.KnowsTable targets :=
  fun id reference hm => (h id reference hm).mono hx

/-- A look-up is one operation, after which the table still holds references to nodes only. -/
structure LooksUp (before after : Lookup) : Prop where
  /-- The draft makes one step. -/
  step : before.1.Step after.1
  /-- The targets found so far stay known, and so is the new one. -/
  knows : before.1.KnowsTable before.2 → after.1.KnowsTable after.2

/-- Looking up one target. -/
theorem resolveNext_looksUp (referrer : String → Referrer) (looked : Lookup) (id next : String)
    (span : Span) : LooksUp looked (resolveNext referrer looked id next span) := by
  obtain ⟨d, targets⟩ := looked
  have hstep := resolve_step d (some (.text next)) (referrer id) span
  unfold resolveNext
  constructor
  · dsimp only
    exact hstep
  · dsimp only
    intro hknown
    have hknown' := hknown.mono hstep.extends
    split
    · rename_i reference hr
      intro key other hm
      rcases Table.mem_put hm with ⟨-, rfl⟩ | hm
      · exact (resolve_knows hr).mono hstep.extends
      · exact hknown' key other hm
    · exact hknown'

/-- Nothing to look up. -/
theorem looksUp_refl (looked : Lookup) : LooksUp looked looked := ⟨.stay, id⟩

/-- Looking up what a question goes on with. -/
theorem resolveFork_looksUp (looked : Lookup) (p : String × Fork) :
    LooksUp looked (resolveFork looked p) := by
  unfold resolveFork
  split
  split
  · exact resolveNext_looksUp _ _ _ _ _
  · exact looksUp_refl looked

/-- Looking up what an arm goes on with. -/
theorem resolveArm_looksUp (looked : Lookup) (arm : Arm) :
    LooksUp looked (resolveArm looked arm) := by
  unfold resolveArm
  split
  · exact resolveNext_looksUp _ _ _ _ _
  · exact looksUp_refl looked

/-- Looking up targets one after the other. -/
theorem lookup_passage {α : Type} {turn : Lookup → α → Lookup}
    (hturn : ∀ looked a, LooksUp looked (turn looked a)) (as : List α) (d : Draft) :
    Passage d (lookupTrail turn as d) (as.foldl turn (d, [])).1 ∧
      (as.foldl turn (d, [])).1.KnowsTable (as.foldl turn (d, [])).2 := by
  have hnil : d.KnowsTable [] := fun _ _ hm => absurd hm List.not_mem_nil
  -- The loop keeps that all targets found so far are nodes.
  have hturn' : ∀ looked : Lookup, ∀ a ∈ as, looked.1.KnowsTable looked.2 →
      Passage looked.1 [(turn looked a).1] (turn looked a).1 ∧
        (turn looked a).1.KnowsTable (turn looked a).2 :=
    fun looked a _ hi => ⟨(hturn looked a).step.passage, (hturn looked a).knows hi⟩
  exact foldl_passage Prod.fst as hturn' (d, []) hnil

/-- All targets that were looked up are nodes. -/
structure KnowsTargets (d : Draft) (targets : Targets) : Prop where
  /-- Those of questions. -/
  questions : d.KnowsTable targets.questions
  /-- Those of choices. -/
  choices : d.KnowsTable targets.choices
  /-- Those of arms. -/
  arms : d.KnowsTable targets.arms

/-- The targets that were looked up stay nodes. -/
theorem KnowsTargets.mono {d e : Draft} (hx : e.Extends d) {targets : Targets}
    (h : d.KnowsTargets targets) : e.KnowsTargets targets :=
  ⟨h.questions.mono hx, h.choices.mono hx, h.arms.mono hx⟩

/-- Looking up all targets is a passage, and they are nodes. -/
theorem resolveTargets_passage (d : Draft) :
    Passage d d.targetsTrail d.resolveTargets.1 ∧
      d.resolveTargets.1.KnowsTargets d.resolveTargets.2 := by
  obtain ⟨hforks, hquestions⟩ := lookup_passage resolveFork_looksUp d.forks d
  obtain ⟨hchosen, hchoices⟩ := lookup_passage
    (fun looked (written : ChoiceNext) => resolveNext_looksUp .choiceNext looked _ _ _)
    (d.forks.foldl resolveFork (d, [])).1.choiceNexts _
  obtain ⟨hheld, harms⟩ := lookup_passage resolveArm_looksUp _ _
  exact ⟨(hforks.append hchosen).append hheld, (hquestions.mono hchosen.extends).mono hheld.extends,
    hchoices.mono hheld.extends, harms⟩

/-- The target of a question is a node. -/
theorem KnowsTargets.ofFork {d : Draft} {targets : Targets} (h : d.KnowsTargets targets)
    {default : Option Reference} (hdefault : ∀ r ∈ default, d.KnowsReference r) {question : String}
    {target : Reference} (ht : targets.ofFork default question = some target) :
    d.KnowsReference target := by
  rcases Option.or_eq_some_iff.mp ht with ht | ⟨-, ht⟩
  · exact h.questions _ _ (Table.mem_of_get? ht)
  · exact hdefault target ht

/-- The target of an arm is a node. -/
theorem KnowsTargets.ofArm {d : Draft} {targets : Targets} (h : d.KnowsTargets targets)
    {default : Option Reference} (hdefault : ∀ r ∈ default, d.KnowsReference r) {arm : Arm}
    {target : Reference} (ht : targets.ofArm default arm = some target) :
    d.KnowsReference target := by
  rcases Option.or_eq_some_iff.mp ht with ht | ⟨-, ht⟩
  · rcases Option.or_eq_some_iff.mp ht with ht | ⟨-, ht⟩
    · exact h.arms _ _ (Table.mem_of_get? ht)
    · exact h.choices _ _ (Table.mem_of_get? ht)
  · exact hdefault target ht

/-- Where the flow goes on by default is a node. -/
theorem Registry.defaultTarget {d : Draft} (h : d.Registry) :
    ∀ r ∈ d.defaultTarget, d.KnowsReference r := by
  intro r hr
  obtain ⟨id, hid, rfl⟩ := Option.map_eq_some_iff.mp hr
  rcases Option.or_eq_some_iff.mp hid with halias | ⟨-, hend⟩
  · exact knowsReference_toNode (h.hasNode_of_alias halias)
  · obtain ⟨node, hnode, rfl⟩ := Option.map_eq_some_iff.mp hend
    exact knowsReference_toNode (h.hasNode_of_mem (List.mem_of_find?_eq_some hnode))

/-- Drawing an edge between nodes that are not linked is one operation. -/
theorem link_step {d : Draft} {edge : Edge} {source target : String}
    (h : d.Joins edge source target) : d.Step (d.link edge source target) := by
  unfold link
  split
  · exact .stay
  · exact .link _ _ _ h

/-- Neighbours are members. -/
theorem mem_of_mem_neighbours {α : Type} {as : List α} {p : α × α} (h : p ∈ neighbours as) :
    p.1 ∈ as ∧ p.2 ∈ as := by
  obtain ⟨a, b⟩ := p
  exact ⟨(List.of_mem_zip h).1, List.mem_of_mem_tail (List.of_mem_zip h).2⟩

/-- Neighbours in a column are nodes. -/
theorem Registry.hasNode_of_mem_columnPairs {d : Draft} (h : d.Registry) {p : String × String}
    (hp : p ∈ d.columnPairs) : d.hasNode p.1 ∧ d.hasNode p.2 := by
  obtain ⟨⟨column, ids⟩, hcolumn, hm⟩ := List.mem_flatMap.mp hp
  have hids : d.columnIds column = ids := by
    rw [columnIds, (Table.get?_eq_some_iff h.columns_nodup).mpr hcolumn, Option.getD_some]
  obtain ⟨h₁, h₂⟩ := mem_of_mem_neighbours hm
  exact ⟨h.hasNode_of_mem_column (hids ▸ h₁), h.hasNode_of_mem_column (hids ▸ h₂)⟩

/-- What a loop that draws edges keeps: a closed draft that extends the one it started with. -/
def ClosedOver (start d : Draft) : Prop := d.Closed ∧ d.Extends start

/-- Operations keep it. -/
theorem Passage.closedOver {start d e : Draft} {t : List Draft} (h : Passage d t e)
    (hd : ClosedOver start d) : ClosedOver start e :=
  ⟨h.closed_last hd.1, h.extends.trans hd.2⟩

/-- Linking the neighbours in every column. -/
theorem linkColumns_passage {d : Draft} (h : d.Closed) :
    Passage d d.columnsTrail d.linkColumns := by
  refine foldl_passage_of_kept Passage.closedOver _ (fun e p hp he => ?_) ⟨h, .refl d⟩
  obtain ⟨source, target⟩ := p
  obtain ⟨hs, ht⟩ := h.registry.hasNode_of_mem_columnPairs hp
  refine Step.passage ?_
  unfold linkNeighbours
  dsimp only
  split
  · exact .stay
  · exact link_step ⟨he.2.hasNode _ hs, he.2.hasNode _ ht, .inl rfl, .inl rfl⟩

/-- Bringing a branch back is one operation. -/
theorem rejoin_step {d : Draft} {last : String} (hl : d.hasNode last) (branch : String)
    {target : Reference} (ht : d.KnowsReference target) : d.Step (d.rejoin last branch target) := by
  unfold rejoin
  split
  · exact .stay
  · exact link_step ⟨hl, ht.node, .inl rfl, ht.named⟩

/-- Drawing the edges of a question. -/
theorem linkFork_passage {d : Draft} {question : String} {fork : Fork}
    (hf : d.KnowsFork question fork) {target : Reference} (ht : d.KnowsReference target) :
    Passage d [d.linkMain question fork target, d.linkFork question fork target]
      (d.linkFork question fork target) := by
  have hmain : d.Step (d.linkMain question fork target) :=
    link_step ⟨hf.question, ht.node, .inl rfl, ht.named⟩
  -- The edge down the main path keeps the target known for the branch.
  have ht' := ht.mono hmain.extends
  refine .step hmain (Step.passage ?_)
  unfold linkFork
  dsimp only
  split
  · exact .connect _ _ _ ⟨hmain.extends.hasNode _ hf.question, ht'.node, .inl rfl, ht'.named⟩
  · rename_i last hl
    exact rejoin_step (hmain.extends.hasNode _ (hf.branchEnd last hl)) _ ht'

/-- Drawing the edges of every question. -/
theorem linkForks_passage {d : Draft} (h : d.Closed) {targets : Targets}
    (hknown : d.KnowsTargets targets) {default : Option Reference}
    (hdefault : ∀ r ∈ default, d.KnowsReference r) :
    Passage d (d.forksTrail targets default) (d.linkForks targets default) := by
  refine foldl_passage_of_kept Passage.closedOver _ (fun e p hp he => ?_) ⟨h, .refl d⟩
  obtain ⟨question, fork⟩ := p
  unfold questionTrail linkQuestion
  dsimp only
  cases htarget : targets.ofFork default question with
  | none => exact .done e
  | some target =>
    have ht := (hknown.ofFork hdefault htarget).mono he.2
    exact linkFork_passage ((h.forks question fork hp).mono he.2) ht

/-- Drawing the edges of an arm. -/
theorem linkArm_passage {d : Draft} {arm : Arm} (ha : d.KnowsArm arm) {target : Option Reference}
    (ht : ∀ r ∈ target, d.KnowsReference r) :
    Passage d [d.linkHead arm, d.linkArm arm target] (d.linkArm arm target) := by
  have hhead : d.Step (d.linkHead arm) := link_step ⟨ha.choice, ha.id, .inl rfl, .inl rfl⟩
  refine .step hhead (Step.passage ?_)
  unfold linkArm
  dsimp only
  split
  · exact .stay
  · rename_i target _
    have ht' := (ht target rfl).mono hhead.extends
    exact link_step ⟨hhead.extends.hasNode _ ha.id, ht'.node, .inl rfl, ht'.named⟩
  · rename_i target last hl
    exact rejoin_step (hhead.extends.hasNode _ (ha.armEnd last hl)) _
      ((ht target rfl).mono hhead.extends)

/-- Grouping arms makes up none. -/
theorem mem_of_mem_groupedArms {arms : List Arm} {arm : Arm} (h : arm ∈ groupedArms arms) :
    arm ∈ arms := by
  obtain ⟨choice, -, hm⟩ := List.mem_flatMap.mp h
  exact List.mem_of_mem_filter hm

/-- Drawing the edges of every choice. -/
theorem linkArms_passage {d : Draft} (h : d.Closed) {targets : Targets}
    (hknown : d.KnowsTargets targets) {default : Option Reference}
    (hdefault : ∀ r ∈ default, d.KnowsReference r) :
    Passage d (d.groupsTrail targets default) (d.linkArms targets default) := by
  refine foldl_passage_of_kept Passage.closedOver _ (fun e arm hm he => ?_) ⟨h, .refl d⟩
  have ha := h.arms arm (mem_of_mem_groupedArms hm)
  exact linkArm_passage (ha.mono he.2) fun r hr => (hknown.ofArm hdefault hr).mono he.2

/-- Drawing the edge to the parameters. -/
theorem linkParameters_step {d : Draft} {edge : Option Edge}
    (h : ∀ x ∈ edge, d.Joins x x.leaves x.enters) : d.Step (d.linkParameters edge) := by
  cases edge with
  | none => exact .stay
  | some edge => exact link_step (h edge rfl)

/-- Adding the attachments, the notes and all edges is a passage. -/
theorem connectRoot_passage {d : Draft} (h : d.Closed) (root : Block) {edge : Option Edge}
    (hedge : ∀ x ∈ edge, d.Joins x x.leaves x.enters) :
    Passage d (d.connectTrail root edge) (d.connectRoot root edge) := by
  -- The attachments and the notes.
  have hattach := foldl_passage_of_kept Passage.closed_last (root.blocksCalled "attach")
    (fun e b _ _ => attach_passage e b) h
  have hnote := hattach.append (foldl_passage_of_kept Passage.closed_last
    (root.blocksCalled "note") (fun e b _ _ => addNote_passage e b) (hattach.closed_last h))
  -- The edge to the parameters and the lines.
  have hopen := hnote.append
    (linkParameters_step fun x hx => (hedge x hx).mono hnote.extends).passage
  have hline := hopen.append (foldl_passage_of_kept Passage.closed_last
    (root.blocksCalled "line") (fun e b _ _ => drawLine_passage e b) (hopen.closed_last h))
  -- The targets, and then the edges down the columns.
  obtain ⟨htargets, hknown⟩ := resolveTargets_passage
    ((root.blocksCalled "line").foldl drawLine _)
  have hresolved := hline.append htargets
  have hcolumns := linkColumns_passage (hresolved.closed_last h)
  have hsequenced := hresolved.append hcolumns
  -- The questions and the arms, for which the targets are still nodes.
  have hdefault := (hsequenced.closed_last h).registry.defaultTarget
  have hforks := linkForks_passage (hsequenced.closed_last h) (hknown.mono hcolumns.extends)
    hdefault
  have hforked := hsequenced.append hforks
  have harms := linkArms_passage (hforked.closed_last h)
    ((hknown.mono hcolumns.extends).mono hforks.extends)
    fun r hr => (hdefault r hr).mono hforks.extends
  exact (hforked.append harms).append Step.settle.passage

end Flowchart.Draft
