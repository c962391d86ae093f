import Flowchart.Proofs.Draft.Expansion

/-!
# Expanding outlines is a passage

What placing a block gives is the id of a node (`placeIcon_cases`), so an arm that has been placed
is known together with its end. With that, every rule of `Expands` is a passage through the drafts
of its trail (`Expands.passage`).
-/

namespace Flowchart.Draft

/-- What placing a block comes to: the block is refused for its name or for its id, or its icon is
entered first of all. -/
theorem placeIcon_cases (o : Outline) (column : Nat) (d : Draft) :
    isReserved o.block.name = true ∧
      placeIcon o column d = (d.report (.reservedBlock o.block.name) o.block.span, none) ∨
    isReserved o.block.name = false ∧ (d.hasNode (d.iconId o.block column) = true ∧
      (∃ first, placeIcon o column d =
        (d.report (.duplicateNode (d.iconId o.block column) first) o.block.span, none)) ∨
    d.hasNode (d.iconId o.block column) = false ∧
      (placeIcon o column d).2 = some (d.iconId o.block column) ∧
      ∃ t, iconTrail o column d = d.enter
        (o.block.node (.ofName o.block.name) (d.iconId o.block column) column) .back :: t) := by
  have hplaces := placeIcon_places o column d
  generalize iconTrail o column d = t at hplaces ⊢
  generalize placeIcon o column d = r at hplaces ⊢
  cases hplaces with
  | reserved reserved => exact .inl ⟨reserved, rfl⟩
  | taken allowed used first => exact .inr ⟨allowed, .inl ⟨used, first, rfl⟩⟩
  | question new => exact .inr ⟨new.allowed, .inr ⟨new.free, rfl, _, rfl⟩⟩
  | choice new => exact .inr ⟨new.allowed, .inr ⟨new.free, rfl, _, rfl⟩⟩
  | loop new => exact .inr ⟨new.allowed, .inr ⟨new.free, rfl, _, rfl⟩⟩
  | plain new => exact .inr ⟨new.allowed, .inr ⟨new.free, rfl, _, rfl⟩⟩

/-- What placing a block gives is the id of an icon. -/
theorem exists_origin_of_placeIcon {o : Outline} {column : Nat} {d : Draft} {id : String}
    (h : (placeIcon o column d).2 = some id) :
    ∃ origin ∈ (placeIcon o column d).1.diagram.origins, origin.id = id := by
  have hexpands := placeIcon_expands (P := fun _ => True) o column d fun _ _ => trivial
  rcases placeIcon_cases o column d with ⟨-, he⟩ | ⟨-, ⟨-, first, he⟩ | ⟨-, hid, t, ht⟩⟩
  · rw [he] at h
    exact nomatch h
  · rw [he] at h
    exact nomatch h
  · rw [hid] at h
    have hmem := hexpands.prefix_origins_of_mem (List.mem_cons_of_mem d (ht ▸ List.mem_cons_self))
    rw [origins_enter] at hmem
    exact ⟨_, hmem.subset (List.mem_append_right _ List.mem_cons_self), Option.some.inj h⟩

/-- The end of an arm is the id of an icon. -/
theorem exists_origin_of_placeInArm (os : List Outline) (column : Nat) (last : Option String)
    (d : Draft) (hlast : ∀ id ∈ last, ∃ origin ∈ d.diagram.origins, origin.id = id) :
    ∀ id ∈ (placeInArm os column last d).2,
      ∃ origin ∈ (placeInArm os column last d).1.diagram.origins, origin.id = id := by
  induction os generalizing last d with
  | nil =>
    rw [placeInArm]
    exact hlast
  | cons o os ih =>
    rw [placeInArm]
    refine ih _ _ fun id hid => ?_
    cases hplaced : (placeIcon o column d).2 with
    | some placed =>
      rw [hplaced, Option.some_or, Option.mem_some_iff] at hid
      exact exists_origin_of_placeIcon (hplaced.trans (congrArg some hid))
    | none =>
      rw [hplaced, Option.none_or] at hid
      obtain ⟨origin, horigin, ho⟩ := hlast id hid
      have hexpands := placeIcon_expands (P := fun _ => True) o column d fun _ _ => trivial
      exact ⟨origin, hexpands.prefix_origins.subset horigin, ho⟩

/-- What has an origin is a node. -/
theorem Registry.hasNode_of_origin {d : Draft} (hd : d.Registry) {origin : Origin}
    (h : origin ∈ d.diagram.origins) : d.hasNode origin.id := by
  obtain ⟨node, hnode, rfl⟩ := List.mem_map.mp h
  exact hd.hasNode_of_mem hnode

/-- An arm that was placed on the way is known. -/
theorem ArmRun.knowsArm {P : Outline → Prop} {drafts : List Draft} {arm : Arm} {o : Outline}
    {column : Nat} {opened closed e : Draft} (h : ArmRun P drafts arm o column opened closed)
    (he : e.Registry) (hlater : ∀ x ∈ drafts, x.diagram.origins <+: e.diagram.origins) :
    e.KnowsArm arm := by
  obtain ⟨before, horigins, choice, hchoice, hid, -⟩ := h.head
  have hopened := (hlater opened h.opened_mem).subset
  rw [horigins] at hopened
  have hhead : e.hasNode arm.id := he.hasNode_of_origin
    (hopened (List.mem_append_right before List.mem_cons_self))
  refine ⟨hid ▸ he.hasNode_of_origin (hopened (List.mem_append_left _ hchoice)), hhead,
    fun last hl => ?_⟩
  have hend := exists_origin_of_placeInArm o.children column none opened fun _ hm => nomatch hm
  rw [h.placed] at hend
  obtain ⟨origin, horigin, rfl⟩ := hend last hl
  exact he.hasNode_of_origin ((hlater closed h.closed_mem).subset horigin)

/-- Reporting problems is a passage. -/
theorem Notes.passage {d e : Draft} {t : List Draft} (h : Notes d t e) : Passage d t e := by
  induction h with
  | done d => exact .done d
  | report fault span _ ih => exact .step (.report fault span) ih

/-- Entering a question and reporting problems is a passage, after which the question is a node. -/
theorem Poses.passage {P : Outline → Prop} {d asked : Draft} {o : Outline} {node : Node}
    {t : List Draft} (poses : Poses P d o node) (noted : Notes (d.enter node .back) t asked) :
    Passage d (d.enter node .back :: t) asked ∧ asked.hasNode node.id := by
  refine ⟨.step (.enter node .back poses.free) noted.passage, ?_⟩
  refine noted.passage.extends.hasNode _ ?_
  obtain ⟨a, -, he⟩ := enter_eq d node .back
  rw [he, hasNode_iff]
  exact Table.mem_keys_put.mpr (.inl rfl)

/-- Expanding outlines is a passage. -/
theorem Expands.passage {P : Outline → Prop} {d e : Draft} {t : List Draft} (h : Expands P d t e)
    (hd : d.Registry) : Passage d t e := by
  induction h with
  | done d => exact .done d
  | trans _ _ ih₁ ih₂ =>
    have hfirst := ih₁ hd
    exact hfirst.append (ih₂ (hfirst.registry hd))
  | stay => exact Step.stay.passage
  | report d fault span => exact (Step.report fault span).passage
  | useColumn d column => exact (Step.useColumn column).passage
  | nameLane d lane column => exact (Step.nameLane lane column).passage
  | setAttribute d id key value => exact (Step.setAttribute id key value).passage
  | enter _ free _ => exact (Step.enter _ .back free).passage
  | keepChoiceNext _ _ d choice span => exact (keepChoiceNext_step d choice _ span).passage
  | keepArms body arms runs ih =>
    have hbody := ih hd
    refine hbody.append (Step.keepArms arms fun arm ha => ?_).passage
    -- The nodes of an arm are among those entered while the arms were placed.
    obtain ⟨o, column, opened, closed, hrun⟩ := runs arm ha
    exact hrun.knowsArm (hbody.registry hd) fun x => body.prefix_origins_of_mem
  | unanswered poses noted fault span _ =>
    exact (poses.passage noted).1.append (Step.report fault span).passage
  | direct poses noted answers =>
    obtain ⟨hasked, hq⟩ := poses.passage noted
    exact hasked.append (keepDirect_passage (answers.question ▸ hq))
  | @branch _ asked e _ _ _ _ poses noted _ answers _ _ _ column _ body _ ih =>
    obtain ⟨hasked, hq⟩ := poses.passage noted
    have hopen : Passage asked [asked.useColumn column] (asked.useColumn column) :=
      (Step.useColumn column).passage
    have hopened := hasked.append hopen
    have hbody := ih (hopened.registry hd)
    -- The branch is closed by an edge from the question, which is still there.
    have hclose := closeBranch_passage (hbody.registry (hopened.registry hd))
      ((hopen.append hbody).extends.hasNode _ (answers.question ▸ hq)) column
      (asked.columnIds column).length
    have hall := hopened.append (hbody.append hclose)
    simp only [List.append_assoc, List.cons_append, List.nil_append] at hall ⊢
    exact hall

end Flowchart.Draft
