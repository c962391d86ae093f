import Flowchart.Proofs.Draft.Placing

/-!
# How a draft grows while blocks are placed

`Grows` says what placing blocks can do to a draft, one rule for each thing. It forgets the blocks
and the drafts on the way and keeps the order: a question is entered and its answers are expanded at
once, so all that is entered before a branch is closed stands behind the question. Expanding
outlines grows a draft (`Expands.grows`), and so do the blocks and lanes of a root
(`written_grows`).

What holds of a draft that has grown is then shown by induction on `Grows`, without the recursion.
-/

namespace Flowchart.Draft

/-- Placing blocks leads from one draft to another. -/
inductive Grows : Draft → Draft → Prop
  /-- Nothing is done. -/
  | done (d : Draft) : Grows d d
  /-- One thing is done after the other. -/
  | trans {d e f : Draft} (first : Grows d e) (rest : Grows e f) : Grows d f
  /-- A problem is noted. -/
  | report (d : Draft) (fault : BuildFault) (span : Span) : Grows d (d.report fault span)
  /-- A column is opened. -/
  | useColumn (d : Draft) (column : Nat) : Grows d (d.useColumn column)
  /-- A lane gets its column. -/
  | nameLane (d : Draft) (lane : String) (column : Nat) :
      Grows d { d with lanes := d.lanes.put lane column }
  /-- A node that is no question is entered. -/
  | enter {d : Draft} (node : Node) (free : d.hasNode node.id = false)
      (plain : node.kind ≠ .question) : Grows d (d.enter node .back)
  /-- An attribute is set. -/
  | setAttribute (d : Draft) (id key : String) (value : Value) :
      Grows d (d.setAttribute id key value)
  /-- The target written on a choice is kept. -/
  | keepChoiceNext (d : Draft) (written : ChoiceNext) :
      Grows d { d with choiceNexts := d.choiceNexts ++ [written] }
  /-- The arms of a choice are kept. -/
  | keepArms {d : Draft} (arms : List Arm) (stand : ∀ arm ∈ arms, d.ArmStands arm) :
      Grows d { d with arms := d.arms ++ arms }
  /-- None of the answers to a question can be used. -/
  | unanswered {d : Draft} (node : Node) (free : d.hasNode node.id = false)
      (asked : node.kind = .question) (fault : BuildFault) (span : Span)
      (isError : fault.severity = .error) : Grows d ((d.enter node .back).report fault span)
  /-- An answer leads straight to the target of its question. -/
  | direct {d : Draft} (node : Node) (free : d.hasNode node.id = false)
      (asked : node.kind = .question) (a : Answer) (own : a.question = node.id) :
      Grows d ((d.enter node .back).keepDirect a)
  /-- An answer leads to a branch, whose blocks go into a column. -/
  | branch {d e : Draft} (node : Node) (free : d.hasNode node.id = false)
      (asked : node.kind = .question) (a : Answer) (own : a.question = node.id) (column : Nat)
      (body : Grows ((d.enter node .back).useColumn column) e) :
      Grows d (e.closeBranch a column ((d.enter node .back).columnIds column).length)

/-! ## Expanding outlines -/

/-- An arm that was placed on the way stands. -/
theorem ArmRun.armStands {P : Outline → Prop} {drafts : List Draft} {arm : Arm} {o : Outline}
    {column : Nat} {opened closed e : Draft} (h : ArmRun P drafts arm o column opened closed)
    (he : e.Registry) (hlater : ∀ x ∈ drafts, x.diagram.origins <+: e.diagram.origins) :
    e.ArmStands arm := by
  obtain ⟨before, horigins, choice, hchoice, hid, hkind⟩ := h.head
  have hposts : ∀ origin ∈ before ++ [⟨⟨arm.id, arm.kind.nodeKind, column⟩, o.block⟩],
      origin.toPost ∈ e.diagram.posts := by
    intro origin hm
    rw [Diagram.posts_eq_origins]
    exact List.mem_map_of_mem ((hlater opened h.opened_mem).subset (horigins ▸ hm))
  refine ⟨⟨_, hposts choice (List.mem_append_left _ hchoice), hid, hkind⟩,
    ⟨_, hposts _ (List.mem_append_right _ List.mem_cons_self), rfl, rfl⟩, ?_⟩
  exact (h.knowsArm he hlater).armEnd

/-- Problems that are reported once a question has been entered might as well be reported before. -/
theorem Notes.grows {d asked : Draft} {node : Node} {t : List Draft}
    (h : Notes (d.enter node .back) t asked) :
    ∃ noted, Grows d noted ∧ noted.hasNode = d.hasNode ∧ asked = noted.enter node .back := by
  generalize hentered : d.enter node .back = entered at h
  induction h generalizing d with
  | done => exact ⟨d, .done d, rfl, hentered.symm⟩
  | report fault span _ ih =>
    have hreport := enter_report d fault span node .back
    rw [hentered] at hreport
    obtain ⟨noted, hgrows, hsame, hnoted⟩ := ih hreport
    exact ⟨noted, (Grows.report d fault span).trans hgrows, hsame, hnoted⟩

/-- Expanding outlines grows a draft. -/
theorem Expands.grows {P : Outline → Prop} {d e : Draft} {t : List Draft} (h : Expands P d t e)
    (hd : d.Registry) : Grows d e := by
  induction h with
  | done d => exact .done d
  | trans first _ ih₁ ih₂ => exact (ih₁ hd).trans (ih₂ ((first.passage hd).registry hd))
  | stay d => exact .done d
  | report => exact .report _ _ _
  | useColumn => exact .useColumn _ _
  | nameLane => exact .nameLane _ _ _
  | setAttribute => exact .setAttribute _ _ _ _
  | enter _ free plain => exact .enter _ free plain
  | @keepChoiceNext o _ _ d choice span =>
    unfold Draft.keepChoiceNext
    split
    · exact .keepChoiceNext _ _
    · exact .done d
  | keepArms body arms runs ih =>
    refine (ih hd).trans (.keepArms arms fun arm ha => ?_)
    obtain ⟨o, column, opened, closed, hrun⟩ := runs arm ha
    exact hrun.armStands ((body.passage hd).registry hd) fun x => body.prefix_origins_of_mem
  -- What is noted about a question may as well be noted before it is entered.
  | unanswered poses noted fault span isError =>
    obtain ⟨noted, hgrows, hsame, rfl⟩ := noted.grows
    have hfree := hsame ▸ poses.free
    exact hgrows.trans (.unanswered _ hfree poses.kind _ _ isError)
  | direct poses noted answers =>
    obtain ⟨noted, hgrows, hsame, rfl⟩ := noted.grows
    have hfree := hsame ▸ poses.free
    exact hgrows.trans (.direct _ hfree poses.kind _ answers.question)
  | @branch _ _ _ _ _ _ _ poses noted _ answers _ _ _ column _ body _ ih =>
    have hasked := (poses.passage noted).1.registry hd
    obtain ⟨noted, hgrows, hsame, rfl⟩ := noted.grows
    have hfree := hsame ▸ poses.free
    exact hgrows.trans (.branch _ hfree poses.kind _ answers.question column
      (ih (hasked.useColumn column)))

/-- Placing the blocks and lanes of a root. -/
theorem written_grows (root : Block) : Grows (initial root) (written root) :=
  (written_expands root).grows (closed_initial root).registry

end Flowchart.Draft
