import Flowchart.Proofs.Draft.Places

/-!
# How outlines are expanded

`Expands` says what placing outlines can do to a draft, one rule for each thing, and remembers the
outlines as well as the drafts on the way. A question is entered and its answers are expanded at
once; the rule for a branch knows between which drafts the blocks of the branch were placed, and the
rule for the arms of a choice knows the same of every arm. `placeIcon_expands` and its companions
show that the recursion on outlines does nothing else, and `written_expands` says so of the blocks
and lanes of a root.

What every operation keeps, and every icon that is made, is kept throughout (`Expands.keeps`).
-/

namespace Flowchart

namespace Draft

/-! ## The icons that are made -/

/-- An icon that is made of an outline, or that closes a loop. -/
inductive Made (P : Outline → Prop) (d : Draft) : Node → Prop
  /-- The icon of a block, under its own name. -/
  | icon {o : Outline} (own : P o) (allowed : isReserved o.block.name = false) (column : Nat) :
      Made P d (o.block.node (.ofName o.block.name) (d.iconId o.block column) column)
  /-- The icon at the head of an arm. -/
  | arm {o : Outline} (own : P o) {kind : ArmKind}
      (named : ArmKind.ofName? o.block.name = some kind) (choice : String) (count column : Nat) :
      Made P d (o.block.node kind.nodeKind (armId o.block choice count) column)
  /-- The node that closes a loop. -/
  | loopEnd (loop : String) (column : Nat) : Made P d (d.loopEndNode loop column)

/-- The icon of a question that is about to be entered. -/
structure Poses (P : Outline → Prop) (d : Draft) (o : Outline) (node : Node) : Prop where
  /-- The question is one of the outlines. -/
  own : P o
  /-- An author may write its name. -/
  allowed : isReserved o.block.name = false
  /-- It is a question. -/
  asked : NodeKind.ofName o.block.name = .question
  /-- The node is its icon. -/
  icon : node = o.block.node .question (d.iconId o.block node.column) node.column
  /-- No node has the id of the icon. -/
  free : d.hasNode node.id = false

/-- What a question is asked with: its id, and the target that is written on it. -/
structure Answers (o : Outline) (id : String) (a : Answer) : Prop where
  /-- It answers the question with this id. -/
  question : a.question = id
  /-- Its target is the one written on the question. -/
  next : a.next = o.block.attributes.trimmed? "next"

/-- Problems are reported, and nothing else happens. -/
inductive Notes : Draft → List Draft → Draft → Prop
  /-- No problem is noted. -/
  | done (d : Draft) : Notes d [] d
  /-- A problem is noted before the others. -/
  | report {d e : Draft} {t : List Draft} (fault : BuildFault) (span : Span)
      (rest : Notes (d.report fault span) t e) : Notes d (d.report fault span :: t) e

/-- An arm was placed between two drafts of a list: in the one it was entered last, behind its
choice, and the other one holds what it holds. -/
structure ArmRun (P : Outline → Prop) (drafts : List Draft) (arm : Arm) (o : Outline)
    (column : Nat) (opened closed : Draft) : Prop where
  /-- The arm is one of the outlines. -/
  own : P o
  /-- Its name says which kind of arm it is. -/
  named : ArmKind.ofName? o.block.name = some arm.kind
  /-- Its target is the one written on it. -/
  next : arm.next = o.block.attributes.trimmed? "next"
  /-- The draft before its blocks are placed is passed through. -/
  opened_mem : opened ∈ drafts
  /-- The draft behind its blocks is passed through. -/
  closed_mem : closed ∈ drafts
  /-- Its head is the last icon before its blocks, and its choice stands before. -/
  head : ∃ before, opened.diagram.origins =
      before ++ [⟨⟨arm.id, arm.kind.nodeKind, column⟩, o.block⟩] ∧
    ∃ choice ∈ before, choice.id = arm.choice ∧ choice.kind = .choice
  /-- Placing its blocks leads from one draft to the other and gives its last block. -/
  placed : placeInArm o.children column none opened = (closed, arm.armEnd)

/-- Expanding outlines leads from one draft to another, by way of the drafts of a list. -/
inductive Expands (P : Outline → Prop) : Draft → List Draft → Draft → Prop
  /-- Nothing is done. -/
  | done (d : Draft) : Expands P d [] d
  /-- One thing is done after the other. -/
  | trans {d e f : Draft} {t u : List Draft} (first : Expands P d t e) (rest : Expands P e u f) :
      Expands P d (t ++ u) f
  /-- A draft is passed through that is the same. -/
  | stay (d : Draft) : Expands P d [d] d
  /-- A problem is noted. -/
  | report (d : Draft) (fault : BuildFault) (span : Span) :
      Expands P d [d.report fault span] (d.report fault span)
  /-- A column is opened. -/
  | useColumn (d : Draft) (column : Nat) : Expands P d [d.useColumn column] (d.useColumn column)
  /-- A lane gets its column. -/
  | nameLane (d : Draft) (lane : String) (column : Nat) :
      Expands P d [{ d with lanes := d.lanes.put lane column }]
        { d with lanes := d.lanes.put lane column }
  /-- An attribute is set. -/
  | setAttribute (d : Draft) (id key : String) (value : Value) :
      Expands P d [d.setAttribute id key value] (d.setAttribute id key value)
  /-- A node that is no question is entered. -/
  | enter {d : Draft} {node : Node} (made : Made P d node) (free : d.hasNode node.id = false)
      (plain : node.kind ≠ .question) : Expands P d [d.enter node .back] (d.enter node .back)
  /-- The target written on a choice is kept. -/
  | keepChoiceNext {o : Outline} (own : P o) (asks : NodeKind.ofName o.block.name = .choice)
      (d : Draft) (choice : String) (span : Span) :
      Expands P d [d.keepChoiceNext choice (o.block.attributes.trimmed? "next") span]
        (d.keepChoiceNext choice (o.block.attributes.trimmed? "next") span)
  /-- The arms of a choice are kept behind all that they hold. -/
  | keepArms {d e : Draft} {t : List Draft} (body : Expands P d t e) (arms : List Arm)
      (runs : ∀ arm ∈ arms, ∃ o column opened closed,
        ArmRun P (d :: t) arm o column opened closed) :
      Expands P d (t ++ [{ e with arms := e.arms ++ arms }]) { e with arms := e.arms ++ arms }
  /-- None of the answers to a question can be used. -/
  | unanswered {d asked : Draft} {t : List Draft} {o : Outline} {node : Node}
      (poses : Poses P d o node) (noted : Notes (d.enter node .back) t asked)
      (fault : BuildFault) (span : Span) (isError : fault.severity = .error) :
      Expands P d (d.enter node .back :: t ++ [asked.report fault span]) (asked.report fault span)
  /-- An answer leads straight to the target of its question. -/
  | direct {d asked : Draft} {t : List Draft} {o : Outline} {node : Node}
      (poses : Poses P d o node) (noted : Notes (d.enter node .back) t asked) {a : Answer}
      (answers : Answers o node.id a) :
      Expands P d (d.enter node .back :: t ++ asked.directTrail a) (asked.keepDirect a)
  /-- An answer leads to a branch, whose blocks go into a column. -/
  | branch {d asked e : Draft} {t u : List Draft} {o : Outline} {node : Node}
      (poses : Poses P d o node) (noted : Notes (d.enter node .back) t asked) {a : Answer}
      (answers : Answers o node.id a) {attributes : Attributes} {icons : List Outline}
      (leads : o.branch a.side = some (.mk true attributes icons)) {column : Nat}
      (chosen : column = attributes.askedColumn.getD asked.nextColumn)
      (body : Expands P (asked.useColumn column) u e)
      (placed : e = placeInBranch icons a column (asked.useColumn column)) :
      Expands P d (d.enter node .back :: t ++ asked.useColumn column :: u ++
          e.closeBranchTrail a column (asked.columnIds column).length)
        (e.closeBranch a column (asked.columnIds column).length)

/-! ## Small steps -/

/-- Reporting problems changes the problems only. -/
theorem Notes.eq {d e : Draft} {t : List Draft} (h : Notes d t e) :
    ∃ problems, e = { d with problems } := by
  induction h with
  | done d => exact ⟨d.problems, rfl⟩
  | report fault span _ ih =>
    obtain ⟨problems, rfl⟩ := ih
    exact ⟨problems, rfl⟩

/-- Reporting more problems. -/
theorem Notes.append {d e f : Draft} {t u : List Draft} (h : Notes d t e) (k : Notes e u f) :
    Notes d (t ++ u) f := by
  induction h with
  | done d => exact k
  | report fault span _ ih => exact .report fault span (ih k)

/-- An arm was placed between drafts of a longer list as well. -/
theorem ArmRun.mono {P : Outline → Prop} {drafts more : List Draft} (hsub : drafts ⊆ more)
    {arm : Arm} {o : Outline} {column : Nat} {opened closed : Draft}
    (h : ArmRun P drafts arm o column opened closed) : ArmRun P more arm o column opened closed :=
  ⟨h.own, h.named, h.next, hsub h.opened_mem, hsub h.closed_mem, h.head, h.placed⟩

/-- The icon of a question is made of its outline. -/
theorem Poses.made {P : Outline → Prop} {d : Draft} {o : Outline} {node : Node}
    (h : Poses P d o node) : Made P d node := by
  rw [h.icon, ← h.asked]
  exact .icon h.own h.allowed _

/-- The icon of a question is one. -/
theorem Poses.kind {P : Outline → Prop} {d : Draft} {o : Outline} {node : Node}
    (h : Poses P d o node) : node.kind = .question := congrArg Node.kind h.icon

/-- The question is entered behind the icons that are there, and problems do not matter. -/
theorem Poses.origins {P : Outline → Prop} {d asked : Draft} {o : Outline} {node : Node}
    {t : List Draft} (h : Poses P d o node) (noted : Notes (d.enter node .back) t asked) :
    asked.diagram.origins =
      d.diagram.origins ++ [⟨⟨node.id, .question, node.column⟩, o.block⟩] := by
  obtain ⟨problems, rfl⟩ := noted.eq
  have horigin : node.origin = ⟨⟨node.id, .question, node.column⟩, o.block⟩ := by
    rw [h.icon]
    rfl
  exact horigin ▸ origins_enter d node .back

/-- What finding the column of a branch comes to: perhaps a problem is reported, and then the column
that was asked for, or else the next one, is in use. -/
theorem branchColumn_notes (d : Draft) (a : Answer) (attributes : Attributes) :
    ∃ t asked, Notes d t asked ∧
      d.branchColumnTrail a attributes =
        t ++ [asked.useColumn (attributes.askedColumn.getD asked.nextColumn)] ∧
      d.branchColumn a attributes = (attributes.askedColumn.getD asked.nextColumn,
        asked.useColumn (attributes.askedColumn.getD asked.nextColumn)) := by
  unfold branchColumnTrail branchColumn Attributes.askedColumn
  cases (attributes.get? "column").bind Value.number? with
  | none => exact ⟨[], d, .done d, rfl, rfl⟩
  | some requested =>
    rw [Option.bind_some]
    dsimp only
    cases (Decimal.Binary.ofFloat requested).whole? with
    | none => exact ⟨[], d, .done d, rfl, rfl⟩
    | some column =>
      dsimp only
      by_cases hle : column ≤ greatestBranchColumn
      · rw [if_pos hle, if_pos hle, if_pos hle]
        exact ⟨[], d, .done d, rfl, rfl⟩
      · rw [if_neg hle, if_neg hle, if_neg hle]
        exact ⟨_, _, .report _ _ (.done _), rfl, rfl⟩

/-- Registering an icon that is no question. -/
theorem register_expands {P : Outline → Prop} {d : Draft} {node : Node} (made : Made P d node)
    (plain : node.kind ≠ .question) :
    Expands P d [(d.register node .back).1] (d.register node .back).1 := by
  rcases register_cases d node .back with ⟨first, he, -⟩ | ⟨free, he⟩
  · rw [he]
    exact .report _ _ _
  · rw [he]
    dsimp only
    exact .enter made free plain

/-- Closing a loop. -/
theorem closeLoop_expands (P : Outline → Prop) (d : Draft) (loop : String) (column : Nat) :
    Expands P d (d.closeLoopTrail loop column) (d.closeLoop loop column) := by
  have hplain : (d.loopEndNode loop column).kind ≠ .question := NodeKind.noConfusion
  exact (register_expands (.loopEnd loop column) hplain).trans (.setAttribute _ loop "loop_end" _)

/-! ## What is kept throughout -/

/-- Two drafts have nodes of the same origins, in the same columns, and the same names. -/
structure SameIcons (d e : Draft) : Prop where
  /-- The same icons stand there, in the same order. -/
  origins : e.diagram.origins = d.diagram.origins
  /-- The same icons stand in every column. -/
  columns : ∀ c, e.columnIds c = d.columnIds c
  /-- The same names are claimed. -/
  aliases : e.aliases = d.aliases

/-- Setting an attribute leaves the icons as they are. -/
theorem sameIcons_setAttribute (d : Draft) (id key : String) (value : Value) :
    SameIcons d (d.setAttribute id key value) :=
  ⟨origins_setAttribute d id key value, fun _ => rfl, rfl⟩

/-- Keeping the target of a choice leaves the icons as they are. -/
theorem sameIcons_keepChoiceNext (d : Draft) (choice : String) (next : Option String)
    (span : Span) : SameIcons d (d.keepChoiceNext choice next span) := by
  obtain ⟨choiceNexts, he⟩ := keepChoiceNext_eq d choice next span
  rw [he]
  exact ⟨rfl, fun _ => rfl, rfl⟩

/-- Linking a question to its branch leaves the icons as they are. -/
theorem sameIcons_linkBranch (d : Draft) (a : Answer) (first : String) :
    SameIcons d (d.linkBranch a first) := by
  unfold linkBranch
  split <;> exact ⟨rfl, fun _ => rfl, rfl⟩

/-- Opening a column leaves the icons as they are. -/
theorem sameIcons_useColumn (d : Draft) (column : Nat) : SameIcons d (d.useColumn column) :=
  ⟨rfl, columnIds_useColumn d column, rfl⟩

/-- An icon is made and entered behind the others, or nothing happens to icons. -/
inductive Makes (P : Outline → Prop) (d : Draft) : Draft → Prop
  /-- A node is entered. -/
  | enter {node : Node} (made : Made P d node) (free : d.hasNode node.id = false) :
      Makes P d (d.enter node .back)
  /-- No node is. -/
  | other {e : Draft} (same : SameIcons d e) : Makes P d e

/-- The drafts of a trail lead from `d` to the last of them, `e`, and each one comes in this way from
the one before. -/
structure Leads (R : Draft → Draft → Prop) (d : Draft) (t : List Draft) (e : Draft) : Prop where
  /-- Each draft is related to the next one. -/
  chain : (d :: t).IsChain R
  /-- The last draft is the one that is led to. -/
  last : (d :: t).getLast? = some e

section Leads

variable {R : Draft → Draft → Prop} {d e f : Draft} {t u : List Draft}

/-- No way at all. -/
theorem Leads.done (d : Draft) : Leads R d [] d := ⟨List.isChain_singleton d, rfl⟩

/-- One draft first. -/
theorem Leads.step (first : R d e) (rest : Leads R e t f) : Leads R d (e :: t) f :=
  ⟨List.isChain_cons_cons.mpr ⟨first, rest.chain⟩, by rw [List.getLast?_cons_cons, rest.last]⟩

/-- A single draft. -/
theorem Leads.one (h : R d e) : Leads R d [e] e := .step h (.done e)

/-- One way behind the other. -/
theorem Leads.append (h : Leads R d t e) (k : Leads R e u f) : Leads R d (t ++ u) f := by
  constructor
  · rw [← List.cons_append]
    refine List.isChain_append.mpr ⟨h.chain, k.chain.tail, fun x hx y hy => ?_⟩
    rw [h.last] at hx
    cases u with
    | nil => exact nomatch hy
    | cons z u =>
      rw [← Option.mem_some_iff.mp hx, ← Option.mem_some_iff.mp hy]
      exact (List.isChain_cons_cons.mp k.chain).1
  · cases u with
    | nil =>
      rw [List.append_nil, h.last, ← k.last]
      rfl
    | cons x u =>
      rw [← List.cons_append, List.getLast?_append_cons, ← k.last, List.getLast?_cons_cons]

/-- The draft that the trail leads to is one of it. -/
theorem Leads.last_mem (h : Leads R d t e) : e ∈ d :: t := List.mem_of_getLast? h.last

/-- Every draft on the way leads to the last one as well. -/
theorem Leads.from_mem (h : Leads R d t e) {x : Draft} (hx : x ∈ d :: t) :
    ∃ u, Leads R x u e := by
  obtain ⟨before, u, hsplit⟩ := List.append_of_mem hx
  obtain ⟨hchain, hlast⟩ := h
  rw [hsplit] at hchain hlast
  rw [List.getLast?_append_cons] at hlast
  exact ⟨u, (List.isChain_append.mp hchain).2.1, hlast⟩

/-- What every change keeps is kept. -/
theorem Leads.keeps {motive : Draft → Prop} (kept : ∀ x y, R x y → motive x → motive y)
    (h : Leads R d t e) (hd : motive d) : ∀ x ∈ d :: t, motive x :=
  List.IsChain.induction motive _ h.chain (fun {x y} hxy => kept x y hxy) fun _ => hd

end Leads

/-- Reporting problems makes no icon. -/
theorem Notes.leads {P : Outline → Prop} {d e : Draft} {t : List Draft} (h : Notes d t e) :
    Leads (Makes P) d t e := by
  induction h with
  | done d => exact .done d
  | report fault span _ ih => exact .step (.other ⟨rfl, fun _ => rfl, rfl⟩) ih

/-- Keeping an answer that leads straight to the target makes no icon. -/
theorem directTrail_leads (P : Outline → Prop) (d : Draft) (a : Answer) :
    Leads (Makes P) d (d.directTrail a) (d.keepDirect a) :=
  .step (.other ⟨rfl, fun _ => rfl, rfl⟩) (.one (.other (sameIcons_setAttribute _ _ _ _)))

/-- Closing a branch makes no icon. -/
theorem closeBranchTrail_leads (P : Outline → Prop) (d : Draft) (a : Answer)
    (column before : Nat) :
    Leads (Makes P) d (d.closeBranchTrail a column before) (d.closeBranch a column before) := by
  unfold closeBranchTrail closeBranch
  cases (d.columnIds column).drop before with
  | nil => exact .one (.other ⟨rfl, fun _ => rfl, rfl⟩)
  | cons first rest =>
    refine .step (.other (sameIcons_linkBranch d a first))
      (.step (.other ⟨rfl, fun _ => rfl, rfl⟩) (.one ?_))
    exact .other (sameIcons_setAttribute _ _ _ _)

section

variable {P : Outline → Prop} {d e : Draft} {t : List Draft}

/-- Icons are made one after the other. -/
theorem Expands.leads (h : Expands P d t e) : Leads (Makes P) d t e := by
  induction h with
  | done d => exact .done d
  | trans _ _ ih₁ ih₂ => exact ih₁.append ih₂
  | useColumn d column => exact .one (.other (sameIcons_useColumn d column))
  | setAttribute d id key value => exact .one (.other (sameIcons_setAttribute d id key value))
  | enter made free _ => exact .one (.enter made free)
  | keepChoiceNext => exact .one (.other (sameIcons_keepChoiceNext _ _ _ _))
  | keepArms _ arms _ ih => exact ih.append (.one (.other ⟨rfl, fun _ => rfl, rfl⟩))
  | unanswered poses noted fault span _ =>
    exact .step (.enter poses.made poses.free)
      (noted.leads.append (.one (.other ⟨rfl, fun _ => rfl, rfl⟩)))
  | direct poses noted _ =>
    exact .step (.enter poses.made poses.free) (noted.leads.append (directTrail_leads P _ _))
  | branch poses noted _ _ _ _ _ ih =>
    rw [List.cons_append, List.cons_append, List.append_assoc]
    refine .step (.enter poses.made poses.free) (noted.leads.append ?_)
    exact .step (.other (sameIcons_useColumn _ _)) (ih.append (closeBranchTrail_leads P _ _ _ _))
  | _ => exact .one (.other ⟨rfl, fun _ => rfl, rfl⟩)

/-- New nodes go behind the others. -/
theorem Makes.prefix_origins {x y : Draft} (h : Makes P x y) :
    x.diagram.origins <+: y.diagram.origins := by
  cases h with
  | enter made free =>
    rw [origins_enter]
    exact List.prefix_append _ _
  | other same => exact same.origins ▸ List.prefix_refl _

/-- New nodes go behind those of their columns. -/
theorem Makes.prefix_columnIds {x y : Draft} (h : Makes P x y) (c : Nat) :
    x.columnIds c <+: y.columnIds c := by
  cases h with
  | enter made free =>
    rw [columnIds_enter]
    split
    · exact List.prefix_append _ _
    · exact List.prefix_refl _
  | other same => exact same.columns c ▸ List.prefix_refl _

/-- What making an icon adds to the end of a list is added behind what every draft on the way has. -/
theorem Expands.prefix_of_mem {α : Type} (view : Draft → List α)
    (kept : ∀ {x y}, Makes P x y → view x <+: view y) (h : Expands P d t e) {x : Draft}
    (hx : x ∈ d :: t) : view x <+: view e := by
  obtain ⟨u, hu⟩ := h.leads.from_mem hx
  exact hu.keeps (motive := fun y => view x <+: view y) (fun _ _ hm hxy => hxy.trans (kept hm))
    (List.prefix_refl _) e hu.last_mem

/-- New nodes go behind those of every draft on the way. -/
theorem Expands.prefix_origins_of_mem (h : Expands P d t e) {x : Draft} (hx : x ∈ d :: t) :
    x.diagram.origins <+: e.diagram.origins :=
  h.prefix_of_mem (fun y => y.diagram.origins) Makes.prefix_origins hx

/-- New nodes go behind those of their columns. -/
theorem Expands.prefix_columnIds_of_mem (h : Expands P d t e) {x : Draft} (hx : x ∈ d :: t)
    (c : Nat) : x.columnIds c <+: e.columnIds c :=
  h.prefix_of_mem (·.columnIds c) (fun hm => hm.prefix_columnIds c) hx

/-- New nodes go behind the others. -/
theorem Expands.prefix_origins (h : Expands P d t e) : d.diagram.origins <+: e.diagram.origins :=
  h.prefix_origins_of_mem List.mem_cons_self

/-- New nodes go behind the others. -/
theorem Expands.infix_posts (h : Expands P d t e) : d.diagram.posts <:+: e.diagram.posts := by
  rw [Diagram.posts_eq_origins, Diagram.posts_eq_origins]
  exact (h.prefix_origins.map _).isInfix

end

/-! ## One block -/

/-- Placing a branch behind the icon of its question is an expansion. -/
def ExpandsBranch (P : Outline → Prop) (b : Branch) : Prop :=
  ∀ (d asked : Draft) (t : List Draft) (o : Outline) (node : Node) (a : Answer),
    Poses P d o node → Notes (d.enter node .back) t asked → Answers o node.id a →
    o.branch a.side = some b → (∀ x ∈ Branch.allOf (some b), P x) →
    Expands P d (d.enter node .back :: t ++ branchTrail b a asked) (placeBranch b a asked)

section

variable {P : Outline → Prop} {o : Outline} {column : Nat} {d : Draft}

/-- A question that can be entered is about to be. -/
theorem Admits.poses (new : d.Admits o.block column) (own : P o)
    (kind : NodeKind.ofName o.block.name = .question) :
    Poses P d o (d.iconNode o.block column) := by
  refine ⟨own, new.allowed, kind, ?_, new.free⟩
  rw [iconNode, kind]
  rfl

/-- Entering an icon that is no question is an expansion. -/
theorem Admits.expands (new : d.Admits o.block column) (own : P o)
    (plain : NodeKind.ofName o.block.name ≠ .question) :
    Expands P d [d.entered o.block column] (d.entered o.block column) :=
  .enter (.icon own new.allowed column) new.free plain

/-- What follows the icon of a question is an expansion together with it, when placing its branches
is. -/
theorem FollowsQuestion.expands {node : Node} {t : List Draft} {e : Draft}
    (h : FollowsQuestion o node.id (d.enter node .back) t e) (poses : Poses P d o node)
    (hall : ∀ x ∈ o.all, P x)
    (branch : ∀ side, ∀ b ∈ o.branch side, ExpandsBranch P b) :
    Expands P d (d.enter node .back :: t) e := by
  have answers : ∀ side, Answers o node.id (o.answer node.id side) := fun _ => ⟨rfl, rfl⟩
  cases h with
  | direct => exact .direct poses (.done _) (answers .no)
  | both => exact .unanswered poses (.done _) _ _ rfl
  | only leads =>
    exact branch _ _ leads _ _ _ _ _ _ poses (.done _) (answers _) leads (all_branch hall leads)
  | other leads =>
    exact branch _ _ leads _ _ _ _ _ _ poses (.report _ _ (.done _)) (answers _) leads
      (all_branch hall leads)

/-- Placing a block is an expansion when placing its parts is. -/
theorem PlacesIcon.expands {t : List Draft} {r : Draft × Option String}
    (h : PlacesIcon o column d t r) (hall : ∀ x ∈ o.all, P x)
    (all : ∀ e, Expands P e (allTrail o.children column e) (placeAll o.children column e))
    (arms : ∀ choice e, e.HasKind choice .choice →
      Expands P e (armsTrail o.children choice column true [] e)
          (placeArms o.children choice column true [] e).1 ∧
        ∀ arm ∈ (placeArms o.children choice column true [] e).2, arm ∈ [] ∨ ∃ x c opened closed,
          ArmRun P (armsTrail o.children choice column true [] e) arm x c opened closed)
    (branch : ∀ side, ∀ b ∈ o.branch side, ExpandsBranch P b) : Expands P d t r.1 := by
  have own : P o := hall o (self_mem_all o)
  cases h with
  | reserved | taken => exact .report _ _ _
  | question new kind asks => exact asks.expands (new.poses own kind) hall branch
  | @choice new kind noted next placed placedArms =>
    subst next placedArms
    have henter := new.expands (P := P) own (kind ▸ NodeKind.noConfusion)
    have hnext : Expands P (d.entered o.block column) _ _ := .keepChoiceNext own kind
      (d.entered o.block column) (d.iconId o.block column) o.block.span
    have hkind : (d.iconNode o.block column).kind = .choice := kind
    have hchoice : (d.entered o.block column).HasKind (d.iconId o.block column) .choice := by
      have hentered := hasKind_enter d (d.iconNode o.block column) .back
      rw [hkind] at hentered
      exact hentered
    obtain ⟨harms, hruns⟩ := arms _ _ (hchoice.mono hnext.infix_posts)
    -- The arms are kept behind all that they hold.
    refine .keepArms (henter.trans (hnext.trans harms)) _ fun arm ha => ?_
    obtain ⟨x, c, opened, closed, hrun⟩ := (hruns arm ha).resolve_left List.not_mem_nil
    exact ⟨x, c, opened, closed, hrun.mono fun y hy => List.mem_cons_of_mem _
      (List.mem_append_right _ (List.mem_append_right _ hy))⟩
  | @loop new kind body placed placedAll =>
    subst placedAll
    have henter := new.expands (P := P) own (kind ▸ NodeKind.noConfusion)
    have hbody := all (d.entered o.block column)
    have hclose := closeLoop_expands P (placeAll o.children column (d.entered o.block column))
      (d.iconId o.block column) column
    exact henter.trans (hbody.trans hclose)
  | plain new question =>
    dsimp only
    exact new.expands own question

/-- An arm takes its column. -/
theorem opens_expands {isFirst : Bool} {armColumn : Nat} {opened : Draft}
    (opens : (if isFirst then (column, d) else d.openColumn) = (armColumn, opened)) :
    Expands P d [opened] opened := by
  cases isFirst with
  | true =>
    obtain ⟨-, rfl⟩ := Prod.mk.inj opens
    exact .stay d
  | false =>
    obtain ⟨-, rfl⟩ := Prod.mk.inj opens
    exact .useColumn d _

section

variable {choice : String} {isFirst : Bool} {arms more : List Arm} {t : List Draft} {e : Draft}

/-- Placing a child of a choice is an expansion when placing its parts is. -/
theorem PlacesChild.expands (h : PlacesChild o choice column isFirst arms d t e more) (own : P o)
    (icon : Expands P d (iconTrail o column d) (placeIcon o column d).1)
    (body : ∀ c e, Expands P e (allTrail o.children c e) (placeInArm o.children c none e).1) :
    Expands P d t e := by
  cases h with
  | icon => exact icon
  | taken named opens => exact (opens_expands opens).trans (.report _ _ _)
  | @arm kind named armColumn opened opens free entered head placed placedBody =>
    have henter : Expands P opened [entered] entered :=
      head ▸ .enter (.arm own named choice arms.length armColumn) free (nodeKind_ne_question kind)
    exact (opens_expands opens).trans (henter.trans (placedBody ▸ body armColumn entered))

/-- An arm that is added when a child of a choice is placed has been placed on the way. -/
theorem PlacesChild.runs (h : PlacesChild o choice column isFirst arms d t e more) (own : P o)
    (hc : d.HasKind choice .choice)
    (body : ∀ c e, Expands P e (allTrail o.children c e) (placeInArm o.children c none e).1) :
    ∀ arm ∈ more, arm ∈ arms ∨ ∃ x c opened closed, ArmRun P t arm x c opened closed := by
  cases h with
  | icon | taken => exact fun _ => .inl
  | @arm kind named armColumn opened opens free entered head placed placedBody =>
    subst placedBody
    intro arm ha
    refine (List.mem_append.mp ha).imp_right fun ha => ?_
    rw [List.mem_singleton.mp ha]
    -- The icon of the arm is the last one when the arm is entered, and its choice is there already.
    have hhead : entered.diagram.origins = opened.diagram.origins ++
        [⟨⟨armId o.block choice arms.length, kind.nodeKind, armColumn⟩, o.block⟩] :=
      head ▸ origins_enter _ _ _
    obtain ⟨post, hpost, hid, hk⟩ := hc.mono (opens_expands (P := P) opens).infix_posts
    rw [Diagram.posts_eq_origins] at hpost
    obtain ⟨origin, horigin, rfl⟩ := List.mem_map.mp hpost
    exact ⟨o, armColumn, entered, _, own, named, rfl, List.mem_cons_of_mem _ List.mem_cons_self,
      List.mem_cons_of_mem _ (body armColumn entered).leads.last_mem,
      ⟨_, hhead, origin, horigin, hid, hk⟩, rfl⟩

end

end

/-! ## The recursion -/

mutual

/-- Placing a block. -/
theorem placeIcon_expands {P : Outline → Prop} : ∀ (o : Outline) (column : Nat) (d : Draft),
    (∀ x ∈ o.all, P x) → Expands P d (iconTrail o column d) (placeIcon o column d).1
  | .mk block children yes no, column, d, hall => by
    obtain ⟨-, hchildren, -, -⟩ := all_mk hall
    refine (placeIcon_places _ column d).expands hall
      (fun e => placeAll_expands children column e hchildren)
      (fun choice e => placeArms_expands children choice column true [] e hchildren) fun side => ?_
    cases side with
    | yes => exact placeSide_expands yes
    | no => exact placeSide_expands no
termination_by structural o => o

/-- Placing what a side of a question leads to, if there is such a side. -/
theorem placeSide_expands {P : Outline → Prop} :
    ∀ (side : Option Branch), ∀ b ∈ side, ExpandsBranch P b := by
  intro side b hb
  cases side with
  | none => exact absurd hb (Option.not_mem_none b)
  | some c =>
    obtain rfl := Option.mem_some_iff.mp hb
    exact placeBranch_expands c
termination_by structural side => side

/-- Placing blocks one below the other. -/
theorem placeAll_expands {P : Outline → Prop} : ∀ (os : List Outline) (column : Nat) (d : Draft),
    (∀ x ∈ Outline.allOf os, P x) → Expands P d (allTrail os column d) (placeAll os column d)
  | [], _, d, _ => .done d
  | o :: os, column, d, hP => by
    obtain ⟨ho, hos⟩ := allOf_cons hP
    exact (placeIcon_expands o column d ho).trans (placeAll_expands os column _ hos)
termination_by structural os => os

/-- Placing what an answer leads to, once its question has been entered. -/
theorem placeBranch_expands {P : Outline → Prop} : ∀ b : Branch, ExpandsBranch P b
  | .mk isWritten attributes icons => by
    intro d asked t o node a poses noted answers leads hP
    rw [branchTrail, placeBranch]
    cases isWritten with
    | false => exact .unanswered poses noted _ _ rfl
    | true =>
      simp only [Bool.not_true, Bool.false_eq_true, if_false]
      split
      · exact .direct poses noted answers
      · -- The column is in use before the first block of the branch is placed.
        obtain ⟨u, opened, hnotes, htrail, hcolumn⟩ := branchColumn_notes asked a attributes
        rw [htrail, hcolumn]
        dsimp only
        generalize hchosen : attributes.askedColumn.getD opened.nextColumn = column
        rw [columnIds_useColumn]
        have hall := Expands.branch poses (noted.append hnotes) answers leads hchosen.symm
          (placeInBranch_expands icons a column (opened.useColumn column) hP) rfl
        simp only [List.append_assoc, List.cons_append, List.nil_append] at hall ⊢
        exact hall
termination_by structural b => b

/-- Placing the blocks of a branch. -/
theorem placeInBranch_expands {P : Outline → Prop} : ∀ (os : List Outline) (a : Answer)
    (column : Nat) (d : Draft), (∀ x ∈ Outline.allOf os, P x) →
    Expands P d (inBranchTrail os a column d) (placeInBranch os a column d)
  | [], _, _, d, _ => .done d
  | o :: os, a, column, d, hP => by
    obtain ⟨ho, hos⟩ := allOf_cons hP
    rw [inBranchTrail, placeInBranch]
    split
    · exact (Expands.report d _ _).trans (placeInBranch_expands os a column _ hos)
    · exact (placeIcon_expands o column d ho).trans (placeInBranch_expands os a column _ hos)
termination_by structural os => os

/-- Placing the children of a choice; every arm that is added has been placed on the way. -/
theorem placeArms_expands {P : Outline → Prop} : ∀ (os : List Outline) (choice : String)
    (column : Nat) (isFirst : Bool) (arms : List Arm) (d : Draft), (∀ x ∈ Outline.allOf os, P x) →
    d.HasKind choice .choice →
    Expands P d (armsTrail os choice column isFirst arms d)
        (placeArms os choice column isFirst arms d).1 ∧
      ∀ arm ∈ (placeArms os choice column isFirst arms d).2, arm ∈ arms ∨
        ∃ o c opened closed,
          ArmRun P (armsTrail os choice column isFirst arms d) arm o c opened closed
  | [], _, _, _, _, d, _, _ => ⟨.done d, fun _ ha => .inl ha⟩
  | .mk block children yes no :: os, choice, column, isFirst, arms, d, hP, hc => by
    obtain ⟨ho, hos⟩ := allOf_cons hP
    obtain ⟨own, hchildren, -, -⟩ := all_mk ho
    obtain ⟨t, e, more, hplaces, htrail, hplaced⟩ :=
      placeArms_places (.mk block children yes no) os choice column isFirst arms d
    rw [htrail, hplaced]
    have hbody := fun c e => placeInArm_expands (P := P) children c none e hchildren
    have hchild := hplaces.expands own (placeIcon_expands (.mk block children yes no) column d ho)
      hbody
    obtain ⟨hrest, hruns⟩ := placeArms_expands os choice column false more e hos
      (hc.mono hchild.infix_posts)
    refine ⟨hchild.trans hrest, fun arm ha => ?_⟩
    -- An arm that is added is that of the first child, or it is one of the others.
    rcases hruns arm ha with ha | ⟨o, c, opened, closed, hrun⟩
    · refine (hplaces.runs own hc hbody arm ha).imp_right ?_
      rintro ⟨o, c, opened, closed, hrun⟩
      exact ⟨o, c, opened, closed, hrun.mono (List.subset_append_left _ _)⟩
    · exact .inr ⟨o, c, opened, closed, hrun.mono (List.subset_append_right _ _)⟩
termination_by structural os => os

/-- Placing the blocks of an arm. -/
theorem placeInArm_expands {P : Outline → Prop} : ∀ (os : List Outline) (column : Nat)
    (last : Option String) (d : Draft), (∀ x ∈ Outline.allOf os, P x) →
    Expands P d (allTrail os column d) (placeInArm os column last d).1
  | [], _, _, d, _ => .done d
  | o :: os, column, last, d, hP => by
    obtain ⟨ho, hos⟩ := allOf_cons hP
    rw [placeInArm]
    exact (placeIcon_expands o column d ho).trans (placeInArm_expands os column _ _ hos)
termination_by structural os => os

end

end Draft

end Flowchart
