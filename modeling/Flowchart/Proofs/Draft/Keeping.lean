import Flowchart.Proofs.Draft.Filling
import Flowchart.Proofs.Draft.Ledger

/-!
# What is kept of outlines

The questions, the arms and the targets of choices that a draft keeps come from outlines that have
been expanded. A question goes on with what is written on its block, and so do an arm and a choice.
A question that has a branch remembers the last node that the branch has put into its column, and an
arm the icon of its last block. `Expands.gathers` says so of everything that is kept.
-/

namespace Flowchart.Draft

/-- A branch was placed between two drafts of a list: in the one its question was entered last, the
other one has what its blocks put into the column, and the branch ends with the last of it. The
column is the one that the branch asks for, or else the next one to open. -/
structure BranchRun (P : Outline → Prop) (drafts : List Draft) (question : String) (fork : Fork)
    (o : Outline) (column : Nat) (opened closed : Draft) (entries : List Entry) : Prop where
  /-- The question is one of the outlines. -/
  own : P o
  /-- The draft before the branch is placed is passed through. -/
  opened_mem : opened ∈ drafts
  /-- The draft behind the blocks of the branch is passed through. -/
  closed_mem : closed ∈ drafts
  /-- The question is the last icon before its branch. -/
  head : ∃ before c, opened.diagram.origins = before ++ [⟨⟨question, .question, c⟩, o.block⟩]
  /-- The answer leads to this branch, and its blocks fill the column that it asks for or the next
  one. -/
  leads : ∃ attributes icons, o.branch fork.side = some (.mk true attributes icons) ∧
    Fills column opened icons closed entries ∧ ∃ asked ∈ drafts,
      opened = asked.useColumn column ∧ column = attributes.askedColumn.getD asked.nextColumn
  /-- The branch ends with the last node in its column. -/
  branchEnd : fork.branchEnd = (entries.flatMap Entry.ids).getLast?

/-- A question that is kept was asked by an outline. It leads straight to its target, or its branch
was placed between two drafts of a list. -/
structure KeptFork (P : Outline → Prop) (drafts : List Draft) (p : String × Fork) : Prop where
  /-- Its target is the one written on a question. -/
  next : ∃ o, P o ∧ NodeKind.ofName o.block.name = .question ∧
    p.2.next = o.block.attributes.trimmed? "next"
  /-- It has no branch, or one whose blocks were placed on the way. -/
  branch : p.2.branchEnd = none ∨ ∃ o column opened closed entries,
    BranchRun P drafts p.1 p.2 o column opened closed entries

/-- The target of a choice that is kept was written on an outline. -/
def KeptNext (P : Outline → Prop) (written : ChoiceNext) : Prop :=
  ∃ o, P o ∧ NodeKind.ofName o.block.name = .choice ∧
    o.block.attributes.trimmed? "next" = some written.next

/-- An arm that is kept was placed between two drafts of a list. -/
def KeptArm (P : Outline → Prop) (drafts : List Draft) (arm : Arm) : Prop :=
  ∃ o column opened closed, ArmRun P drafts arm o column opened closed

/-- Whatever one draft keeps and another one does not comes from outlines that were expanded on the
way. -/
structure Gathers (P : Outline → Prop) (drafts : List Draft) (d e : Draft) : Prop where
  /-- The new questions come from outlines. -/
  forks : ∀ p ∈ e.forks, p ∈ d.forks ∨ KeptFork P drafts p
  /-- The new arms come from outlines. -/
  arms : ∀ arm ∈ e.arms, arm ∈ d.arms ∨ KeptArm P drafts arm
  /-- The new targets of choices come from outlines. -/
  choiceNexts : ∀ written ∈ e.choiceNexts, written ∈ d.choiceNexts ∨ KeptNext P written

section

variable {P : Outline → Prop} {drafts more : List Draft} {d e f : Draft}

/-- A branch was placed between drafts of a longer list as well. -/
theorem KeptFork.mono (hsub : drafts ⊆ more) {p : String × Fork} (h : KeptFork P drafts p) :
    KeptFork P more p := by
  refine ⟨h.next, h.branch.imp_right ?_⟩
  rintro ⟨o, column, opened, closed, entries, hrun⟩
  obtain ⟨attributes, icons, hleads, hfills, asked, hasked, hchosen⟩ := hrun.leads
  exact ⟨o, column, opened, closed, entries, hrun.own, hsub hrun.opened_mem, hsub hrun.closed_mem,
    hrun.head, ⟨attributes, icons, hleads, hfills, asked, hsub hasked, hchosen⟩, hrun.branchEnd⟩

/-- An arm was placed between drafts of a longer list as well. -/
theorem KeptArm.mono (hsub : drafts ⊆ more) {arm : Arm} (h : KeptArm P drafts arm) :
    KeptArm P more arm := by
  obtain ⟨o, column, opened, closed, hrun⟩ := h
  exact ⟨o, column, opened, closed, hrun.mono hsub⟩

/-- The drafts on the way may be among others. -/
theorem Gathers.mono (hsub : drafts ⊆ more) (h : Gathers P drafts d e) : Gathers P more d e :=
  ⟨fun p hp => (h.forks p hp).imp_right (·.mono hsub),
    fun arm ha => (h.arms arm ha).imp_right (·.mono hsub), h.choiceNexts⟩

/-- What is gathered one after the other is gathered together. -/
theorem Gathers.trans (h : Gathers P drafts d e) (k : Gathers P drafts e f) :
    Gathers P drafts d f :=
  ⟨fun p hp => (k.forks p hp).elim (h.forks p) .inr,
    fun arm ha => (k.arms arm ha).elim (h.arms arm) .inr,
    fun written hw => (k.choiceNexts written hw).elim (h.choiceNexts written) .inr⟩

/-- Nothing is kept. -/
theorem gathers_of_same (forks : e.forks = d.forks) (arms : e.arms = d.arms)
    (choiceNexts : e.choiceNexts = d.choiceNexts) : Gathers P drafts d e :=
  ⟨fun _ hp => .inl (forks ▸ hp), fun _ ha => .inl (arms ▸ ha), fun _ hw => .inl (choiceNexts ▸ hw)⟩

/-- A question is kept. -/
theorem gathers_keepFork (d : Draft) {a : Answer} {branchEnd : Option String}
    (kept : KeptFork P drafts (a.question, ⟨a.side, branchEnd, a.next, a.span⟩))
    (summary : List (String × Value)) : Gathers P drafts d (d.keepFork a branchEnd summary) := by
  refine ⟨?_, fun _ => .inl, fun _ => .inl⟩
  rintro ⟨question, fork⟩ hp
  rcases Table.mem_put hp with ⟨rfl, rfl⟩ | hp
  · exact .inr kept
  · exact .inl hp

/-- Linking the head of a branch keeps nothing. -/
theorem gathers_linkBranch (d : Draft) (a : Answer) (first : String) :
    Gathers P drafts d (d.linkBranch a first) := by
  unfold linkBranch
  split <;> exact gathers_of_same rfl rfl rfl

/-- Entering a question and reporting problems keeps nothing. -/
theorem Notes.gathers {t : List Draft} {asked : Draft} {node : Node}
    (noted : Notes (d.enter node .back) t asked) : Gathers P drafts d asked := by
  obtain ⟨problems, rfl⟩ := noted.eq
  exact gathers_of_same (forks_enter d node .back) (arms_enter d node .back)
    (choiceNexts_enter d node .back)

end

/-- The drafts on the way, and those further on. -/
theorem subset_trail {d e : Draft} {t u : List Draft} (he : e ∈ d :: t) :
    e :: u ⊆ d :: (t ++ u) := by
  rw [← List.cons_append]
  exact List.cons_subset.mpr ⟨List.mem_append_left _ he, List.subset_append_right _ _⟩

/-- What is kept while outlines are expanded comes from them. -/
theorem Expands.gathers {P : Outline → Prop} {d e : Draft} {t : List Draft}
    (h : Expands P d t e) : Gathers P (d :: t) d e := by
  induction h with
  | trans first rest ih₁ ih₂ =>
    -- Each part keeps what comes of drafts in its own trail, and these are in the whole one.
    refine (ih₁.mono ?_).trans (ih₂.mono (subset_trail first.leads.last_mem))
    exact List.cons_subset_cons _ (List.subset_append_left _ _)
  | enter made free plain =>
    exact gathers_of_same (forks_enter _ _ _) (arms_enter _ _ _) (choiceNexts_enter _ _ _)
  | @keepChoiceNext o own asks d choice span =>
    unfold Draft.keepChoiceNext
    split
    · -- The target that is kept is the one written on the choice.
      rename_i next hnext
      refine ⟨fun _ => .inl, fun _ => .inl, fun written hw => (List.mem_append.mp hw).imp_right ?_⟩
      intro hw
      rw [List.mem_singleton.mp hw]
      exact ⟨o, own, asks, hnext⟩
    · exact gathers_of_same rfl rfl rfl
  | @keepArms d e t body arms runs ih =>
    have hsub : d :: t ⊆ d :: (t ++ [{ e with arms := e.arms ++ arms }]) :=
      List.cons_subset_cons _ (List.subset_append_left _ _)
    refine (ih.mono hsub).trans ⟨fun _ => .inl, fun arm ha => ?_, fun _ => .inl⟩
    exact (List.mem_append.mp ha).imp_right fun ha => KeptArm.mono hsub (runs arm ha)
  | unanswered poses noted fault span isError =>
    exact noted.gathers.trans (gathers_of_same rfl rfl rfl)
  | @direct d asked t o node poses noted a answers =>
    exact noted.gathers.trans
      (gathers_keepFork asked ⟨⟨o, poses.own, poses.asked, answers.next⟩, .inl rfl⟩ _)
  | @branch d asked e t u o node poses noted a answers attributes icons leads column chosen body
      placed ih =>
    have hasked := (noted.leads (P := P)).last_mem
    -- The drafts of the branch are behind those in which the question was asked.
    have htrail : asked.useColumn column :: u ⊆ d :: (d.enter node .back :: t ++
        asked.useColumn column :: u ++
          e.closeBranchTrail a column (asked.columnIds column).length) :=
      fun x hx => List.mem_cons_of_mem _ (List.mem_append_left _ (List.mem_append_right _ hx))
    refine noted.gathers.trans (.trans (e := asked.useColumn column)
      (gathers_of_same rfl rfl rfl) ((ih.mono htrail).trans ?_))
    rcases closeBranch_cases e a column (asked.columnIds column).length with
      ⟨-, hclose⟩ | ⟨first, rest, last, summary, hdrop, hlast, hclose⟩
    · rw [hclose]
      exact gathers_of_same rfl rfl rfl
    · -- What the blocks have put into the column are the nodes that the branch runs through.
      obtain ⟨entries, hfills⟩ := placeInBranch_fills icons a column (asked.useColumn column)
      rw [← placed] at hfills
      rw [hfills.columnIds, columnIds_useColumn, List.drop_left] at hdrop
      rw [hclose]
      refine (gathers_linkBranch e a first).trans (gathers_keepFork _ ⟨⟨o, poses.own, poses.asked,
        answers.next⟩, .inr ⟨o, column, asked.useColumn column, e, entries, poses.own,
          htrail List.mem_cons_self, htrail body.leads.last_mem,
          ⟨d.diagram.origins, node.column, ?_⟩,
          ⟨attributes, icons, leads, hfills, asked, ?_, rfl, chosen⟩, (hdrop ▸ hlast).symm⟩⟩ _)
      · rw [diagram_useColumn, poses.origins noted, answers.question]
      · exact List.mem_cons_of_mem _ (List.mem_append_left _ (List.mem_append_left _ hasked))
  | _ => exact gathers_of_same rfl rfl rfl

/-! ## The draft of a root -/

section

variable {root : Block}

/-- The tables are right in every draft in which the blocks of a root are placed. -/
theorem registry_of_mem_writtenTrail {d : Draft} (hd : d ∈ initial root :: writtenTrail root) :
    d.Registry :=
  (((written_expands root).passage (closed_initial root).registry).closed
    (closed_initial root) d hd).registry

variable (root) in
/-- The tables are right in the end. -/
theorem registry_ofRoot : (ofRoot root).Registry :=
  (ofRoot_ledger root).agrees.registry (placed_planned root).closed.registry

/-- The nodes of a draft in which the blocks of a root are placed are still there in the end. -/
theorem infix_origins_ofRoot {d : Draft} (hd : d ∈ initial root :: writtenTrail root) :
    d.diagram.origins <:+: (ofRoot root).diagram.origins := by
  obtain ⟨_, hfurnish⟩ := (placeRoot_furnishes root).1.passage
  have horigins : (ofRoot root).diagram.origins = (placeRoot root).1.diagram.origins :=
    congrArg (List.map Node.origin) (ofRoot_ledger root).agrees.nodes
  rw [horigins]
  exact ((written_expands root).prefix_origins_of_mem hd).isInfix.trans hfurnish.infix_origins

/-- The nodes of a draft in which the blocks of a root are placed are still there in the end. -/
theorem infix_posts_ofRoot {d : Draft} (hd : d ∈ initial root :: writtenTrail root) :
    d.diagram.posts <:+: (ofRoot root).diagram.posts := by
  rw [Diagram.posts_eq_origins, Diagram.posts_eq_origins]
  exact (infix_origins_ofRoot hd).map _

variable (root) in
/-- The questions of a root are those that its blocks have left. -/
theorem forks_ofRoot : (ofRoot root).forks = (written root).forks :=
  (ofRoot_ledger root).agrees.forks.trans (placeRoot_furnishes root).1.forks

variable (root) in
/-- The arms of a root are those that its blocks have left. -/
theorem arms_ofRoot : (ofRoot root).arms = (written root).arms :=
  (ofRoot_ledger root).agrees.arms.trans (placeRoot_furnishes root).1.arms

variable (root) in
/-- What is kept of a root is what its blocks have left. -/
theorem gathers_ofRoot : Gathers (· ∈ Outline.allOf root.outline.children)
    (initial root :: writtenTrail root) (initial root) (ofRoot root) :=
  (written_expands root).gathers.trans (gathers_of_same (forks_ofRoot root) (arms_ofRoot root)
    ((ofRoot_ledger root).agrees.choiceNexts.trans (placeRoot_furnishes root).1.choiceNexts))

/-- Every question of a root that is kept comes from one of its outlines. -/
theorem keptFork_ofRoot {p : String × Fork} (hp : p ∈ (ofRoot root).forks) :
    KeptFork (· ∈ Outline.allOf root.outline.children) (initial root :: writtenTrail root) p :=
  ((gathers_ofRoot root).forks p hp).resolve_left List.not_mem_nil

/-- Every arm of a root that is kept comes from one of its outlines. -/
theorem keptArm_ofRoot {arm : Arm} (ha : arm ∈ (ofRoot root).arms) :
    KeptArm (· ∈ Outline.allOf root.outline.children) (initial root :: writtenTrail root) arm :=
  ((gathers_ofRoot root).arms arm ha).resolve_left List.not_mem_nil

/-- Every target of a choice of a root that is kept comes from one of its outlines. -/
theorem keptNext_ofRoot {written : ChoiceNext} (hw : written ∈ (ofRoot root).choiceNexts) :
    KeptNext (· ∈ Outline.allOf root.outline.children) written :=
  ((gathers_ofRoot root).choiceNexts written hw).resolve_left List.not_mem_nil

end

end Flowchart.Draft
