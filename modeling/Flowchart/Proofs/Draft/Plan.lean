import Flowchart.Proofs.Draft.Growth

/-!
# What is kept of questions and arms

While blocks are placed, edges are drawn from questions to the heads of their branches only; the
other edges of questions and choices wait, and the questions and arms are kept for them. `Planned`
says how what is kept hangs together with the nodes and with the edges drawn so far.

It rests on the order in which questions are kept. A question is entered before its branch and kept
behind all that is kept of the branch. So what a growing draft keeps is new to it, the end of a
branch as well as the question (`Grows.forks`), and no question ends the branch of one that was kept
before it.

The last result is about drafts without errors: there every question is kept (`Grows.answered`).
-/

namespace Flowchart

/-- Whether an author wrote the edge as a line; only lines say in their attributes where they lead
from. -/
def Edge.isWritten (e : Edge) : Bool := e.attributes.has "from"

/-- The node an edge leaves, the kind of the edge, and whether it was written. -/
def Edge.exit (e : Edge) : String × EdgeKind × Bool := (e.leaves, e.kind, e.isWritten)

namespace Diagram

/-- An edge leads from one node to another. -/
def Connects (d : Diagram) (source target : String) : Prop :=
  ∃ e ∈ d.edges, e.sourceNode = some source ∧ e.targetNode = some target

/-- An edge of a kind leads from one node to another. -/
def ConnectsAs (d : Diagram) (kind : EdgeKind) (source target : String) : Prop :=
  ∃ e ∈ d.edges, e.sourceNode = some source ∧ e.targetNode = some target ∧ e.kind = kind

/-- The branch of a question that has `last` at its end has `first` at its head: of the nodes behind
the question, that is the first one in the column of `last`. -/
def HeadsBranch (d : Diagram) (question last first : String) : Prop :=
  ∃ before asked between head after, d.posts = before ++ asked :: (between ++ head :: after) ∧
    asked.id = question ∧ head.id = first ∧ (∀ post ∈ between, post.column ≠ head.column) ∧
    ∃ tail ∈ head :: after, tail.id = last ∧ tail.column = head.column

/-- A branch keeps its head. -/
theorem HeadsBranch.mono {d e : Diagram} (hx : d.posts <:+: e.posts) {question last first : String}
    (h : d.HeadsBranch question last first) : e.HeadsBranch question last first := by
  obtain ⟨before, asked, between, head, after, hposts, hq, hf, hbetween, tail, hm, hl⟩ := h
  obtain ⟨front, back, hx⟩ := hx
  refine ⟨front ++ before, asked, between, head, after ++ back, ?_, hq, hf, hbetween, tail,
    List.mem_append_left back hm, hl⟩
  rw [← hx, hposts]
  simp only [List.append_assoc, List.cons_append]

/-- What is connected stays so when edges are added. -/
theorem Connects.mono {d e : Diagram} (hx : d.edges ⊆ e.edges) {source target : String}
    (h : d.Connects source target) : e.Connects source target := by
  obtain ⟨edge, hm, hj⟩ := h
  exact ⟨edge, hx hm, hj⟩

/-- What is connected stays so when edges are added. -/
theorem ConnectsAs.mono {d e : Diagram} (hx : d.edges ⊆ e.edges) {kind : EdgeKind}
    {source target : String} (h : d.ConnectsAs kind source target) :
    e.ConnectsAs kind source target := by
  obtain ⟨edge, hm, hj⟩ := h
  exact ⟨edge, hx hm, hj⟩

end Diagram

namespace Draft

/-! ## Nodes behind others -/

/-- The ids of the nodes in a column, by their posts. -/
theorem Registry.columnIds_eq_posts {d : Draft} (h : d.Registry) (c : Nat) :
    d.columnIds c = (d.diagram.posts.filter (·.column = c)).map Post.id := by
  rw [h.columns c, Diagram.posts, List.filter_map, List.map_map]
  rfl

/-- What a column lists behind the nodes of an earlier draft are the new nodes in it. -/
theorem drop_columnIds {d e : Draft} (hd : d.Registry) (he : e.Registry) {more : List Post}
    (hposts : e.diagram.posts = d.diagram.posts ++ more) (c : Nat) :
    (e.columnIds c).drop (d.columnIds c).length = (more.filter (·.column = c)).map Post.id := by
  rw [he.columnIds_eq_posts, hd.columnIds_eq_posts, hposts, List.filter_append, List.map_append,
    List.drop_left]

/-- A node behind those of an earlier draft is none of them. -/
theorem hasNode_eq_false_of_mem {d e : Draft} (hd : d.Registry) (he : e.Registry)
    {more : List Post} (hposts : e.diagram.posts = d.diagram.posts ++ more) {post : Post}
    (hm : post ∈ more) : d.hasNode post.id = false := by
  have hnodup := he.nodup
  rw [map_id_eq_posts, hposts, List.map_append, List.nodup_append] at hnodup
  rw [← Bool.not_eq_true, hd.hasNode_iff_mem, map_id_eq_posts]
  exact fun hold => hnodup.2.2 _ hold _ (List.mem_map_of_mem hm) rfl

/-! ## What entering a node leaves alone -/

/-- Entering a node keeps no question. -/
@[simp] theorem forks_enter (d : Draft) (node : Node) (p : Placement) :
    (d.enter node p).forks = d.forks := by
  obtain ⟨a, -, he⟩ := enter_eq d node p
  rw [he]

/-- Entering a node keeps no arm. -/
@[simp] theorem arms_enter (d : Draft) (node : Node) (p : Placement) :
    (d.enter node p).arms = d.arms := by
  obtain ⟨a, -, he⟩ := enter_eq d node p
  rw [he]

/-- Entering a node keeps no target of a choice. -/
@[simp] theorem choiceNexts_enter (d : Draft) (node : Node) (p : Placement) :
    (d.enter node p).choiceNexts = d.choiceNexts := by
  obtain ⟨a, -, he⟩ := enter_eq d node p
  rw [he]

/-- Entering a node draws no edge. -/
@[simp] theorem edges_enter (d : Draft) (node : Node) (p : Placement) :
    (d.enter node p).diagram.edges = d.diagram.edges := by
  obtain ⟨a, -, he⟩ := enter_eq d node p
  rw [he]

/-- Entering a node links no nodes. -/
@[simp] theorem linked_enter (d : Draft) (node : Node) (p : Placement) :
    (d.enter node p).linked = d.linked := by
  obtain ⟨a, -, he⟩ := enter_eq d node p
  rw [he]

/-- Entering a node does not remember it as the start. -/
@[simp] theorem start_enter (d : Draft) (node : Node) (p : Placement) :
    (d.enter node p).start = d.start := by
  obtain ⟨a, -, he⟩ := enter_eq d node p
  rw [he]

/-- Entering a node notes no problem. -/
@[simp] theorem problems_enter (d : Draft) (node : Node) (p : Placement) :
    (d.enter node p).problems = d.problems := by
  obtain ⟨a, -, he⟩ := enter_eq d node p
  rw [he]

/-! ## Growing is a passage -/

/-- A node that has been entered is one of the draft. -/
theorem hasNode_enter {d : Draft} (h : d.Registry) {node : Node} (free : d.hasNode node.id = false) :
    (d.enter node .back).hasNode node.id :=
  (hasKind_enter d node .back).hasNode (h.enter node .back free)

/-- Whatever placing blocks does, it does by operations. -/
theorem Grows.passage {d e : Draft} (h : Grows d e) (hd : d.Registry) :
    ∃ trail, Passage d trail e := by
  induction h with
  | done d => exact ⟨_, .done d⟩
  | trans _ _ ih₁ ih₂ =>
    obtain ⟨_, hp⟩ := ih₁ hd
    obtain ⟨_, hq⟩ := ih₂ (hp.registry hd)
    exact ⟨_, hp.append hq⟩
  | report d fault span => exact ⟨_, (Step.report fault span).passage⟩
  | useColumn d column => exact ⟨_, (Step.useColumn column).passage⟩
  | nameLane d lane column => exact ⟨_, (Step.nameLane lane column).passage⟩
  | enter node free _ => exact ⟨_, (Step.enter node .back free).passage⟩
  | setAttribute d id key value => exact ⟨_, (Step.setAttribute id key value).passage⟩
  | keepChoiceNext d written => exact ⟨_, (Step.keepChoiceNext written).passage⟩
  | keepArms arms stand =>
    exact ⟨_, (Step.keepArms arms fun arm ha => (stand arm ha).knowsArm hd).passage⟩
  | unanswered node free _ fault span _ =>
    exact ⟨_, .step (.enter node .back free) (Step.report fault span).passage⟩
  | direct node free _ a own =>
    have hq := hasNode_enter hd free
    exact ⟨_, .step (.enter node .back free) (keepDirect_passage (own ▸ hq))⟩
  | branch node free _ a own column _ ih =>
    have h₁ := hd.enter node .back free
    obtain ⟨_, hp⟩ := ih (h₁.useColumn column)
    -- The branch is closed after all its blocks are placed.
    have hall : Passage _ _ _ := .step (.enter node .back free) (.step (.useColumn column) hp)
    have hq : _ := (Passage.step (.useColumn column) hp).extends.hasNode _ (hasNode_enter hd free)
    exact ⟨_, hall.append (closeBranch_passage (hall.registry hd) (own ▸ hq) column _)⟩

/-! ## Closing a branch -/

/-- What closing a branch comes to: there is nothing in it, or it runs from its first to its last
node. -/
theorem closeBranch_cases (d : Draft) (a : Answer) (column before : Nat) :
    ((d.columnIds column).drop before = [] ∧
      d.closeBranch a column before = d.report (.branchWithoutNodes a.question a.side) a.span) ∨
    ∃ first rest last summary, (d.columnIds column).drop before = first :: rest ∧
      (first :: rest).getLast? = some last ∧
      d.closeBranch a column before = (d.linkBranch a first).keepFork a (some last) summary := by
  unfold closeBranch
  split
  · rename_i hdrop
    exact .inl ⟨hdrop, rfl⟩
  · rename_i first rest hdrop
    exact .inr ⟨first, rest, rest.getLast?.getD first, _, hdrop, List.getLast?_cons, rfl⟩

/-- Keeping a question moves no node. -/
theorem posts_keepFork (d : Draft) (a : Answer) (branchEnd : Option String)
    (summary : List (String × Value)) :
    (d.keepFork a branchEnd summary).diagram.posts = d.diagram.posts :=
  posts_setAttribute _ _ _ _

/-- Linking a question to its branch moves no node. -/
theorem posts_linkBranch (d : Draft) (a : Answer) (first : String) :
    (d.linkBranch a first).diagram.posts = d.diagram.posts := by
  unfold linkBranch
  split <;> rfl

/-- Closing a branch adds no node. -/
theorem posts_closeBranch (d : Draft) (a : Answer) (column before : Nat) :
    (d.closeBranch a column before).diagram.posts = d.diagram.posts := by
  rcases closeBranch_cases d a column before with ⟨-, he⟩ | ⟨first, -, last, summary, -, -, he⟩
  · rw [he]
    rfl
  · rw [he, posts_keepFork, posts_linkBranch]

/-- A problem is no part of the diagram. -/
@[simp] theorem diagram_report (d : Draft) (fault : BuildFault) (span : Span) :
    (d.report fault span).diagram = d.diagram := rfl

/-- A column that is opened is no part of the diagram. -/
@[simp] theorem diagram_useColumn (d : Draft) (column : Nat) :
    (d.useColumn column).diagram = d.diagram := rfl

/-- A node is entered behind the others. -/
theorem prefix_posts_enter (d : Draft) (node : Node) :
    d.diagram.posts <+: (d.enter node .back).diagram.posts := by
  rw [posts_enter]
  exact List.prefix_append _ _

/-- New nodes go behind the others. -/
theorem Grows.posts {d e : Draft} (h : Grows d e) : d.diagram.posts <+: e.diagram.posts := by
  induction h with
  | trans _ _ ih₁ ih₂ => exact ih₁.trans ih₂
  | @enter d node _ _ => exact prefix_posts_enter d node
  | setAttribute d id key value =>
    exact (posts_setAttribute d id key value).symm ▸ List.prefix_refl _
  | @unanswered d node _ _ _ _ _ =>
    rw [diagram_report]
    exact prefix_posts_enter d node
  | @direct d node _ _ a _ =>
    rw [keepDirect, posts_keepFork]
    exact prefix_posts_enter d node
  | @branch d e node _ _ _ _ column _ ih =>
    rw [diagram_useColumn] at ih
    rw [posts_closeBranch]
    exact (prefix_posts_enter d node).trans ih
  | _ => exact List.prefix_refl _

/-! ## What is kept is new -/

/-- The nodes in a branch, when it is about to be closed. -/
structure Body (d e : Draft) (column before : Nat) (more : List Post) : Prop where
  /-- Everything that is kept leads to nodes. -/
  closed : e.Closed
  /-- The new nodes stand behind those that were there. -/
  posts : e.diagram.posts = d.diagram.posts ++ more
  /-- Their ids were not in use. -/
  fresh : ∀ post ∈ more, d.hasNode post.id = false
  /-- Those in the column stand there in the same order. -/
  column : (e.columnIds column).drop before = (more.filter (·.column = column)).map Post.id

/-- The nodes in a branch are those that placing its blocks has added. -/
theorem Grows.body {d e : Draft} (h : Grows d e) (hd : d.Closed) (column : Nat) :
    ∃ more, Body d e column (d.columnIds column).length more := by
  obtain ⟨_, hp⟩ := h.passage hd.registry
  have he := hp.closed_last hd
  obtain ⟨more, hposts⟩ := h.posts
  exact ⟨more, he, hposts.symm,
    fun post hm => hasNode_eq_false_of_mem hd.registry he.registry hposts.symm hm,
    drop_columnIds hd.registry he.registry hposts.symm column⟩

/-- What a branch runs through are nodes added in it. -/
theorem Body.exists_post {d e : Draft} {column before : Nat} {more : List Post}
    (h : Body d e column before more) {id : String} (hm : id ∈ (e.columnIds column).drop before) :
    ∃ post ∈ more, post.id = id ∧ post.column = column := by
  rw [h.column] at hm
  obtain ⟨post, hpost, hid⟩ := List.mem_map.mp hm
  obtain ⟨hpost, hcolumn⟩ := List.mem_filter.mp hpost
  exact ⟨post, hpost, hid, of_decide_eq_true hcolumn⟩

/-- Linking a question to its branch does not keep it yet. -/
@[simp] theorem forks_linkBranch (d : Draft) (a : Answer) (first : String) :
    (d.linkBranch a first).forks = d.forks := by
  unfold linkBranch
  split <;> rfl

/-- A problem that is noted keeps no question. -/
@[simp] theorem forks_report (d : Draft) (fault : BuildFault) (span : Span) :
    (d.report fault span).forks = d.forks := rfl

/-- A column that is opened keeps no question. -/
@[simp] theorem forks_useColumn (d : Draft) (column : Nat) :
    (d.useColumn column).forks = d.forks := rfl

/-- A question that is kept for the first time goes behind the others. -/
theorem forks_keepFork {d : Draft} {a : Answer} (hnew : a.question ∉ d.forks.keys)
    (branchEnd : Option String) (summary : List (String × Value)) :
    (d.keepFork a branchEnd summary).forks =
      d.forks ++ [(a.question, ⟨a.side, branchEnd, a.next, a.span⟩)] :=
  Table.put_of_notMem hnew _

/-- The questions that are kept are nodes. -/
theorem Closed.hasNode_of_mem_keys {d : Draft} (h : d.Closed) {question : String}
    (hm : question ∈ d.forks.keys) : d.hasNode question := by
  obtain ⟨⟨_, fork⟩, hp, rfl⟩ := List.mem_map.mp hm
  exact (h.forks _ fork hp).question

/-- A new question is not kept yet. -/
theorem Closed.notMem_keys {d : Draft} (h : d.Closed) {question : String}
    (free : d.hasNode question = false) : question ∉ d.forks.keys := fun hm =>
  Bool.false_ne_true (free.symm.trans (h.hasNode_of_mem_keys hm))

/-- A question and the end of its branch are none of the nodes of a draft. -/
def NewFork (d : Draft) (p : String × Fork) : Prop :=
  d.hasNode p.1 = false ∧ ∀ last ∈ p.2.branchEnd, d.hasNode last = false

/-- What is no node of a draft is none of an earlier one. -/
theorem Extends.hasNode_eq_false {d e : Draft} (hx : e.Extends d) {id : String}
    (h : e.hasNode id = false) : d.hasNode id = false :=
  Bool.eq_false_iff.mpr fun hd => Bool.false_ne_true (h.symm.trans (hx.hasNode id hd))

/-- What is new to a draft was new before. -/
theorem NewFork.mono {d e : Draft} (hx : e.Extends d) {p : String × Fork} (h : e.NewFork p) :
    d.NewFork p :=
  ⟨hx.hasNode_eq_false h.1, fun last hl => hx.hasNode_eq_false (h.2 last hl)⟩

/-- A draft whose question has been entered and the column of whose branch is open is closed. -/
theorem Closed.enter_useColumn {d : Draft} (h : d.Closed) {node : Node}
    (free : d.hasNode node.id = false) (column : Nat) :
    ((d.enter node .back).useColumn column).Closed :=
  (Step.useColumn column).closed ((Step.enter node .back free).closed h)

/-- The draft that a branch is placed in extends the one before, by the question at least. -/
theorem opened_extends (d : Draft) {node : Node} (free : d.hasNode node.id = false) (column : Nat) :
    ((d.enter node .back).useColumn column).Extends d ∧
      (d.Registry → ((d.enter node .back).useColumn column).hasNode node.id) :=
  ⟨(Step.useColumn column).extends.trans (Step.enter node .back free).extends,
    fun hd => (Step.useColumn column).extends.hasNode _ (hasNode_enter hd free)⟩

/-- A new question that is entered before its branch is placed is not kept with the branch. -/
theorem notMem_keys_of_new {d opened e : Draft} (hd : d.Closed) {question : String}
    (free : d.hasNode question = false) (entered : opened.hasNode question)
    {more : Table String Fork} (hforks : e.forks = d.forks ++ more)
    (hnew : ∀ p ∈ more, opened.NewFork p) : question ∉ e.forks.keys := by
  rw [hforks, Table.keys, List.map_append, List.mem_append, not_or]
  refine ⟨hd.notMem_keys free, fun hm => ?_⟩
  obtain ⟨p, hp, rfl⟩ := List.mem_map.mp hm
  exact Bool.false_ne_true ((hnew p hp).1.symm.trans entered)

/-- What is kept of questions stays, and what is added is new. -/
theorem Grows.forks {d e : Draft} (h : Grows d e) (hd : d.Closed) :
    ∃ more, e.forks = d.forks ++ more ∧ ∀ p ∈ more, d.NewFork p := by
  have hsame : ∀ d : Draft, ∃ more, d.forks = d.forks ++ more ∧ ∀ p ∈ more, d.NewFork p :=
    fun d => ⟨[], (List.append_nil _).symm, fun _ hp => absurd hp List.not_mem_nil⟩
  induction h with
  | trans h₁ _ ih₁ ih₂ =>
    obtain ⟨_, hp⟩ := h₁.passage hd.registry
    obtain ⟨more₁, he₁, hnew₁⟩ := ih₁ hd
    obtain ⟨more₂, he₂, hnew₂⟩ := ih₂ (hp.closed_last hd)
    refine ⟨more₁ ++ more₂, by rw [he₂, he₁, List.append_assoc], fun p hm => ?_⟩
    exact (List.mem_append.mp hm).elim (hnew₁ p) fun hm => (hnew₂ p hm).mono hp.extends
  | @enter d node _ _ =>
    rw [forks_enter]
    exact hsame d
  | @unanswered d node _ _ fault span _ =>
    rw [forks_report, forks_enter]
    exact hsame d
  | @direct d node free _ a own =>
    have hkeys : a.question ∉ (d.enter node .back).forks.keys := by
      rw [forks_enter, own]
      exact hd.notMem_keys free
    refine ⟨_, by rw [keepDirect, forks_keepFork hkeys, forks_enter], fun p hm => ?_⟩
    rw [List.mem_singleton.mp hm, NewFork, own]
    exact ⟨free, fun _ hl => nomatch hl⟩
  | @branch d e node free _ a own column hbody ih =>
    -- The branch is placed in a draft with the question in it, so all that it keeps is younger.
    have hclosed := hd.enter_useColumn free column
    have hx := (opened_extends d free column).1
    have hentered := (opened_extends d free column).2
    obtain ⟨more, he, hnew⟩ := ih hclosed
    rw [forks_useColumn, forks_enter] at he
    have hkeys : a.question ∉ e.forks.keys :=
      notMem_keys_of_new hd (own ▸ free) (own ▸ hentered hd.registry) he hnew
    have hnew' : ∀ p ∈ more, d.NewFork p := fun p hp => (hnew p hp).mono hx
    obtain ⟨posts, hposts⟩ := hbody.body hclosed column
    rw [columnIds_useColumn] at hposts
    rcases closeBranch_cases e a column ((d.enter node .back).columnIds column).length with
      ⟨-, hclose⟩ | ⟨first, rest, last, summary, hdrop, hlast, hclose⟩
    · rw [hclose]
      exact ⟨more, he, hnew'⟩
    · rw [hclose, forks_keepFork (by rwa [forks_linkBranch]), forks_linkBranch, he,
        List.append_assoc]
      refine ⟨_, rfl, fun p hm => ?_⟩
      rcases List.mem_append.mp hm with hm | hm
      · exact hnew' p hm
      · rw [List.mem_singleton.mp hm, NewFork, own]
        obtain ⟨post, hpost, rfl, -⟩ := hposts.exists_post (hdrop ▸ List.mem_of_getLast? hlast)
        refine ⟨free, fun l hl => ?_⟩
        rw [← Option.mem_some_iff.mp hl]
        exact hx.hasNode_eq_false (hposts.fresh post hpost)
  | _ => exact hsame _

/-! ## What is planned -/

/-- The way from a question to the head of its branch, if it has one. -/
def branchExit : String × Fork → Option (String × EdgeKind × Bool)
  | (question, fork) => fork.branchEnd.map fun _ => (question, fork.side.edgeKind, false)

/-- What is kept of questions and arms is about icons of these kinds, and the only edges are those
to the heads of the branches. -/
structure Planned (d : Draft) : Prop where
  /-- Everything that is kept leads to nodes. -/
  closed : d.Closed
  /-- What is kept as a question is one. -/
  question : ∀ p ∈ d.forks, d.HasKind p.1 .question
  /-- No question is kept twice. -/
  nodup : d.forks.keys.Nodup
  /-- No question is at the end of the branch of one that is kept before it. -/
  ordered : d.forks.Pairwise fun earlier later => earlier.2.branchEnd ≠ some later.1
  /-- The branch of a question has a head in a column of its own, and an edge leads there. -/
  branch : ∀ p ∈ d.forks, ∀ last ∈ p.2.branchEnd, ∃ first,
    d.diagram.HeadsBranch p.1 last first ∧ d.diagram.ConnectsAs p.2.side.edgeKind p.1 first
  /-- There are no other edges, and they are drawn in the order in which the questions were
  closed. -/
  exits : d.diagram.edges.map Edge.exit = d.forks.filterMap branchExit
  /-- The arms that are kept stand where they should. -/
  arms : ∀ arm ∈ d.arms, d.ArmStands arm
  /-- The start is a start icon. -/
  start : ∀ id ∈ d.start, d.HasKind id .start
  /-- No nodes are linked yet. -/
  linked : d.linked = []

/-- A passage that adds neither questions nor edges. -/
theorem Planned.of_passage {d e : Draft} {t : List Draft} (h : d.Planned) (hp : Passage d t e)
    (forks : e.forks = d.forks) (arms : ∀ arm ∈ e.arms, arm ∈ d.arms ∨ e.ArmStands arm)
    (start : ∀ id ∈ e.start, id ∈ d.start ∨ e.HasKind id .start)
    (edges : e.diagram.edges = d.diagram.edges) (linked : e.linked = d.linked) : e.Planned where
  closed := hp.closed_last h.closed
  question := by
    rw [forks]
    exact fun p hm => (h.question p hm).mono hp.infix_posts
  nodup := forks ▸ h.nodup
  ordered := forks ▸ h.ordered
  branch := by
    rw [forks]
    intro p hm last hl
    obtain ⟨first, hfirst, hedge⟩ := h.branch p hm last hl
    exact ⟨first, hfirst.mono hp.infix_posts, hedge.mono (edges ▸ List.Subset.refl _)⟩
  exits := by rw [edges, forks, h.exits]
  arms arm ha := (arms arm ha).elim (fun hm => (h.arms arm hm).mono hp) id
  start i hi := (start i hi).elim (fun hm => (h.start i hm).mono hp.infix_posts) id
  linked := linked.trans h.linked

/-- An operation that adds neither questions nor arms nor edges. -/
theorem Planned.step {d e : Draft} (h : d.Planned) (hs : d.Step e) (forks : e.forks = d.forks)
    (arms : e.arms = d.arms) (start : e.start = d.start)
    (edges : e.diagram.edges = d.diagram.edges) (linked : e.linked = d.linked) : e.Planned :=
  h.of_passage hs.passage forks (fun _ ha => .inl (arms ▸ ha)) (fun _ hi => .inl (start ▸ hi))
    edges linked

/-- One more question is kept, with the edge to its branch. -/
theorem Planned.addFork {d e : Draft} (h : d.Planned) (closed : e.Closed)
    (posts : e.diagram.posts = d.diagram.posts) {question : String} {fork : Fork}
    (asked : d.HasKind question .question) (free : question ∉ d.forks.keys)
    (ordered : ∀ p ∈ d.forks, p.2.branchEnd ≠ some question)
    (branch : ∀ last ∈ fork.branchEnd, ∃ first, e.diagram.HeadsBranch question last first ∧
      e.diagram.ConnectsAs fork.side.edgeKind question first)
    (forks : e.forks = d.forks ++ [(question, fork)]) {heads : List Edge}
    (edges : e.diagram.edges = d.diagram.edges ++ heads)
    (exits : heads.map Edge.exit = (branchExit (question, fork)).toList)
    (arms : e.arms = d.arms) (start : e.start = d.start) (linked : e.linked = d.linked) :
    e.Planned := by
  have hposts : d.diagram.posts <:+: e.diagram.posts := posts ▸ List.infix_refl _
  have hedges : d.diagram.edges ⊆ e.diagram.edges := edges ▸ List.subset_append_left _ _
  refine ⟨closed, fun p hp => ?_, ?_, ?_, fun p hp last hl => ?_, ?_, fun arm ha => ?_,
    fun id hi => ?_, linked.trans h.linked⟩
  · rw [forks] at hp
    rcases List.mem_append.mp hp with hp | hp
    · exact (h.question p hp).mono hposts
    · rw [List.mem_singleton.mp hp]
      exact asked.mono hposts
  · -- No fork has been kept for the question.
    rw [forks, Table.keys, List.map_append, List.nodup_append]
    refine ⟨h.nodup, List.nodup_singleton _, fun key hkey other hother => ?_⟩
    rw [List.mem_singleton.mp hother]
    rintro rfl
    exact free hkey
  · -- No branch that was kept before ends at the question.
    rw [forks, List.pairwise_append]
    refine ⟨h.ordered, List.pairwise_singleton _ _, fun p hp other hother => ?_⟩
    rw [List.mem_singleton.mp hother]
    exact ordered p hp
  · rw [forks] at hp
    rcases List.mem_append.mp hp with hp | hp
    · obtain ⟨first, hfirst, hedge⟩ := h.branch p hp last hl
      exact ⟨first, hfirst.mono hposts, hedge.mono hedges⟩
    · rw [List.mem_singleton.mp hp] at hl ⊢
      exact branch last hl
  · -- The edges are the exits of the branches that were kept and that of the new one.
    rw [edges, List.map_append, h.exits, exits, forks, List.filterMap_append]
    cases hexit : branchExit (question, fork) <;> simp [hexit]
  · rw [arms] at ha
    have hstands := h.arms arm ha
    exact ⟨hstands.choice.mono hposts, hstands.id.mono hposts, (closed.arms arm (arms ▸ ha)).armEnd⟩
  · exact (h.start id (start ▸ hi)).mono hposts

/-- While blocks are placed, only questions that are kept have edges. -/
theorem Planned.hasEdge_eq_false {d : Draft} (h : d.Planned) {question : String}
    (free : question ∉ d.forks.keys) (target : String) : d.hasEdge question target = false := by
  rw [← Bool.not_eq_true, hasEdge, List.any_eq_true]
  rintro ⟨edge, hm, hedge⟩
  simp only [Bool.and_eq_true, decide_eq_true_eq] at hedge
  have hexit : edge.exit ∈ d.forks.filterMap branchExit := h.exits ▸ List.mem_map_of_mem hm
  obtain ⟨⟨asked, fork⟩, hp, hexit⟩ := List.mem_filterMap.mp hexit
  obtain ⟨_, _, hleaves⟩ := Option.map_eq_some_iff.mp hexit
  have hasked : asked = question := (congrArg Prod.fst hleaves).trans hedge.1
  exact free (hasked ▸ List.mem_map_of_mem hp)

/-- A new question is not at the end of a branch that was kept before it. -/
theorem branchEnd_ne_of_new {d opened e : Draft} (hd : d.Closed) {question : String}
    (free : d.hasNode question = false) (entered : opened.hasNode question)
    {more : Table String Fork} (hforks : e.forks = d.forks ++ more)
    (hnew : ∀ p ∈ more, opened.NewFork p) : ∀ p ∈ e.forks, p.2.branchEnd ≠ some question := by
  intro p hp hend
  rw [hforks] at hp
  rcases List.mem_append.mp hp with hp | hp
  · exact Bool.false_ne_true (free.symm.trans ((hd.forks p.1 p.2 hp).branchEnd question hend))
  · exact Bool.false_ne_true (((hnew p hp).2 question hend).symm.trans entered)

/-- Entering a node adds neither questions nor edges. -/
theorem Planned.enter {d : Draft} (h : d.Planned) {node : Node} (p : Placement)
    (free : d.hasNode node.id = false) : (d.enter node p).Planned :=
  h.step (.enter node p free) (forks_enter d node p) (arms_enter d node p) (start_enter d node p)
    (edges_enter d node p) (linked_enter d node p)

/-- A problem that is noted leaves the plan as it is. -/
theorem Planned.report {d : Draft} (h : d.Planned) (fault : BuildFault) (span : Span) :
    (d.report fault span).Planned :=
  h.step (.report fault span) rfl rfl rfl rfl rfl

/-- A column that is opened leaves the plan as it is. -/
theorem Planned.useColumn {d : Draft} (h : d.Planned) (column : Nat) :
    (d.useColumn column).Planned :=
  h.step (.useColumn column) rfl rfl rfl rfl rfl

/-- Keeping a question with a direct answer. -/
theorem Planned.keepDirect {d : Draft} (h : d.Planned) {a : Answer}
    (asked : d.HasKind a.question .question) (free : a.question ∉ d.forks.keys)
    (ordered : ∀ p ∈ d.forks, p.2.branchEnd ≠ some a.question) : (d.keepDirect a).Planned := by
  have hclosed := (keepDirect_passage (asked.hasNode h.closed.registry)).closed_last h.closed
  refine h.addFork hclosed (posts_keepFork d a none _) asked free ordered ?_
    (forks_keepFork free none _) (List.append_nil _).symm rfl rfl rfl rfl
  exact fun _ hl => nomatch hl

/-- Linking a question to the head of its branch draws an edge, for there is none yet. -/
theorem linkBranch_eq {d : Draft} (h : d.Planned) {a : Answer} (free : a.question ∉ d.forks.keys)
    (first : String) : d.linkBranch a first = d.connect (branchHead a first) a.question first := by
  rw [linkBranch, h.hasEdge_eq_false free first]
  rfl

/-- The branch of a question that was entered last runs from the first to some node that was added
in its column. -/
theorem Body.headsBranch {opened e : Draft} {column count : Nat} {more : List Post}
    (h : Body opened e column count more) {before : List Post} {asked : Post}
    (hopened : opened.diagram.posts = before ++ [asked]) {first last : String} {rest : List String}
    (hdrop : (e.columnIds column).drop count = first :: rest) (hlast : last ∈ first :: rest) :
    e.diagram.HeadsBranch asked.id last first := by
  rw [h.column, List.map_eq_cons_iff] at hdrop
  obtain ⟨head, members, hfilter, hhead, hmembers⟩ := hdrop
  obtain ⟨between, after, hmore, hbetween, hcolumn, hafter⟩ := List.filter_eq_cons_iff.mp hfilter
  rw [decide_eq_true_eq] at hcolumn
  refine ⟨before, asked, between, head, after, ?_, rfl, hhead, fun post hm => ?_, ?_⟩
  · rw [h.posts, hopened, hmore, List.append_assoc, List.singleton_append]
  · have hnot := hbetween post hm
    rw [decide_eq_true_eq] at hnot
    exact hcolumn ▸ hnot
  · -- What follows the head in its column are the other members.
    rw [← hhead, ← hmembers, ← hafter, ← List.map_cons] at hlast
    obtain ⟨tail, hm, hid⟩ := List.mem_map.mp hlast
    rcases List.mem_cons.mp hm with rfl | hm
    · exact ⟨tail, List.mem_cons_self, hid, rfl⟩
    · obtain ⟨hm, htail⟩ := List.mem_filter.mp hm
      exact ⟨tail, List.mem_cons_of_mem _ hm, hid, (of_decide_eq_true htail).trans hcolumn.symm⟩

/-- Closing a branch, once its nodes stand behind the question. -/
theorem Planned.closeBranch {opened e : Draft} (h : e.Planned) {a : Answer} {before : List Post}
    {asked : Post} (hopened : opened.diagram.posts = before ++ [asked])
    (hasked : asked.id = a.question) (hkind : asked.kind = .question) {column count : Nat}
    {more : List Post} (hbody : Body opened e column count more) (free : a.question ∉ e.forks.keys)
    (ordered : ∀ p ∈ e.forks, p.2.branchEnd ≠ some a.question) :
    (e.closeBranch a column count).Planned := by
  have hquestion : e.HasKind a.question .question := by
    refine ⟨asked, ?_, hasked, hkind⟩
    rw [hbody.posts, hopened]
    exact List.mem_append_left _ List.mem_concat_self
  have hnode := hquestion.hasNode h.closed.registry
  have hclosed := (closeBranch_passage h.closed.registry hnode column count).closed_last h.closed
  rcases closeBranch_cases e a column count with
    ⟨-, hclose⟩ | ⟨first, rest, last, summary, hdrop, hlast, hclose⟩
  · rw [hclose]
    exact h.report _ _
  · rw [hclose, linkBranch_eq h free] at hclosed ⊢
    refine h.addFork hclosed (posts_keepFork _ a _ summary) hquestion free ordered ?_
      (forks_keepFork free (some last) summary) rfl rfl rfl rfl rfl
    intro l hl
    rw [← Option.mem_some_iff.mp hl]
    refine ⟨first, ?_, _, List.mem_concat_self, rfl, rfl, rfl⟩
    refine (hasked ▸ hbody.headsBranch hopened hdrop (List.mem_of_getLast? hlast)).mono ?_
    rw [posts_keepFork]
    exact List.infix_refl _

/-- A draft with a plan has one when it has grown. -/
theorem Grows.planned {d e : Draft} (h : Grows d e) (hd : d.Planned) : e.Planned := by
  induction h with
  | done d => exact hd
  | trans _ _ ih₁ ih₂ => exact ih₂ (ih₁ hd)
  | report d fault span => exact hd.report fault span
  | useColumn d column => exact hd.useColumn column
  | nameLane d lane column => exact hd.step (.nameLane lane column) rfl rfl rfl rfl rfl
  | enter node free _ => exact hd.enter .back free
  | setAttribute d id key value =>
    exact hd.step (.setAttribute id key value) rfl rfl rfl rfl rfl
  | keepChoiceNext d written => exact hd.step (.keepChoiceNext written) rfl rfl rfl rfl rfl
  | @keepArms d arms stand =>
    have hs : d.Step _ := .keepArms arms fun arm ha => (stand arm ha).knowsArm hd.closed.registry
    refine hd.of_passage hs.passage rfl (fun arm ha => ?_) (fun _ => .inl) rfl rfl
    exact (List.mem_append.mp ha).imp_right fun ha => (stand arm ha).mono hs.passage
  | unanswered node free _ fault span _ => exact (hd.enter .back free).report fault span
  | @direct d node free asked a own =>
    -- The question has just been entered, so nothing is kept for it.
    have hentered := hd.enter .back free
    have hforks : (d.enter node .back).forks = d.forks ++ [] := by rw [forks_enter, List.append_nil]
    have hnew : ∀ p ∈ ([] : Table String Fork), (d.enter node .back).NewFork p :=
      fun _ hp => absurd hp List.not_mem_nil
    have hnode := hasNode_enter hd.closed.registry free
    rw [← own] at free hnode
    refine hentered.keepDirect (own ▸ asked ▸ hasKind_enter d node .back) ?_ ?_
    · exact notMem_keys_of_new hd.closed free hnode hforks hnew
    · exact branchEnd_ne_of_new hd.closed free hnode hforks hnew
  | @branch d e node free asked a own column body ih =>
    -- What is kept while the branch is placed is about questions that are entered there.
    have hopened := (hd.enter .back free).useColumn column
    obtain ⟨posts, hbody⟩ := body.body hopened.closed column
    obtain ⟨more, hforks, hnew⟩ := body.forks hopened.closed
    rw [forks_useColumn, forks_enter] at hforks
    rw [columnIds_useColumn] at hbody
    have hnode := (opened_extends d free column).2 hd.closed.registry
    rw [← own] at free hnode
    have hposts : ((d.enter node .back).useColumn column).diagram.posts =
        d.diagram.posts ++ [node.post] := by rw [diagram_useColumn, posts_enter]
    refine (ih hopened).closeBranch hposts own.symm asked hbody ?_ ?_
    · exact notMem_keys_of_new hd.closed free hnode hforks hnew
    · exact branchEnd_ne_of_new hd.closed free hnode hforks hnew

/-- Building starts without questions, arms and edges. -/
theorem planned_initial (root : Block) : (initial root).Planned where
  closed := closed_initial root
  question _ h := absurd h List.not_mem_nil
  nodup := List.nodup_nil
  ordered := List.Pairwise.nil
  branch _ h := absurd h List.not_mem_nil
  exits := rfl
  arms _ h := absurd h List.not_mem_nil
  start _ h := nomatch h
  linked := rfl

/-- The draft with the blocks and lanes of a root has a plan. -/
theorem written_planned (root : Block) : (written root).Planned :=
  (written_grows root).planned (planned_initial root)

/-! ## Drafts without errors -/

/-- No problem that has been noted is an error. -/
def Clean (d : Draft) : Prop := ∀ problem ∈ d.problems, problem.fault.severity ≠ .error

/-- Problems are never taken back. -/
theorem Step.problems_prefix {d e : Draft} (h : d.Step e) : d.problems <+: e.problems := by
  cases h with
  | report fault span => exact List.prefix_append _ _
  | enter node p free =>
    exact (problems_enter d node p).symm ▸ List.prefix_refl _
  | claim name id known =>
    obtain ⟨a, -, he⟩ := claim_eq d name id
    exact he.symm ▸ List.prefix_refl _
  | settle =>
    rw [settleEdges_eq]
    exact List.prefix_append _ _
  | _ => exact List.prefix_refl _

/-- Problems are never taken back. -/
theorem Passage.problems_prefix {d e : Draft} {t : List Draft} (h : Passage d t e) :
    d.problems <+: e.problems := by
  induction h with
  | done d => exact List.prefix_refl _
  | step first _ ih => exact first.problems_prefix.trans ih

/-- There were no errors before a draft without errors. -/
theorem Passage.clean {d e : Draft} {t : List Draft} (h : Passage d t e) (he : e.Clean) : d.Clean :=
  fun problem hm => he problem (h.problems_prefix.subset hm)

/-- Linking a question to the head of its branch notes no problem. -/
theorem problems_linkBranch (d : Draft) (a : Answer) (first : String) :
    (d.linkBranch a first).problems = d.problems := by
  unfold linkBranch
  split <;> rfl

/-- Closing a branch without an error keeps its question beside those that are kept. -/
theorem closeBranch_clean {e : Draft} {a : Answer} {column before : Nat}
    (h : (e.closeBranch a column before).Clean) :
    e.Clean ∧ ∀ id, id ∈ (e.closeBranch a column before).forks.keys ↔
      id = a.question ∨ id ∈ e.forks.keys := by
  rcases closeBranch_cases e a column before with
    ⟨-, hclose⟩ | ⟨first, rest, last, summary, -, -, hclose⟩
  · -- A branch without nodes is an error.
    rw [hclose] at h
    exact absurd rfl (h _ List.mem_concat_self)
  · rw [hclose] at h ⊢
    have hproblems : ((e.linkBranch a first).keepFork a (some last) summary).problems =
        e.problems := problems_linkBranch e a first
    rw [Clean, hproblems] at h
    refine ⟨h, fun id => ?_⟩
    rw [← forks_linkBranch e a first]
    exact Table.mem_keys_put

/-- The questions that have come in since an earlier draft are kept. -/
def Answered (d e : Draft) : Prop :=
  ∀ post ∈ e.diagram.posts, post.kind = .question →
    post.id ∈ e.forks.keys ∨ post ∈ d.diagram.posts

/-- Where no nodes have come in, there are no questions to keep. -/
theorem answered_of_posts {d e : Draft} (h : e.diagram.posts = d.diagram.posts) : Answered d e :=
  fun _ hm _ => .inr (h ▸ hm)

/-- What has come in since a draft in between is kept, and what came in before it still is. -/
theorem Answered.trans {d e f : Draft} (h : Answered d e) (k : Answered e f)
    (kept : ∀ id ∈ e.forks.keys, id ∈ f.forks.keys) : Answered d f := fun post hm hk => by
  rcases k post hm hk with hf | hm
  · exact .inl hf
  · exact (h post hm hk).imp_left (kept _)

/-- Where one node has come in, all is well when it is kept if it is a question. -/
theorem answered_enter {d e : Draft} {node : Node}
    (posts : e.diagram.posts = (d.enter node .back).diagram.posts)
    (kept : node.kind = .question → node.id ∈ e.forks.keys) : Answered d e := fun post hm hk => by
  rcases mem_posts_enter.mp (posts ▸ hm) with rfl | hm
  · exact .inl (kept hk)
  · exact .inr hm

/-- In a grown draft without errors, all new questions are kept. -/
theorem Grows.answered {d e : Draft} (h : Grows d e) (hd : d.Closed) (he : e.Clean) :
    Answered d e := by
  induction h with
  | trans h₁ h₂ ih₁ ih₂ =>
    obtain ⟨_, hp⟩ := h₁.passage hd.registry
    have hclosed := hp.closed_last hd
    obtain ⟨_, hq⟩ := h₂.passage hclosed.registry
    obtain ⟨more, hforks, -⟩ := h₂.forks hclosed
    refine (ih₁ hd (hq.clean he)).trans (ih₂ hclosed he) fun id hkept => ?_
    rw [hforks, Table.keys, List.map_append]
    exact List.mem_append_left _ hkept
  | enter node free plain => exact answered_enter rfl fun hk => absurd hk plain
  | setAttribute d id key value => exact answered_of_posts (posts_setAttribute d id key value)
  | unanswered node _ _ fault span isError =>
    exact absurd isError (he ⟨fault, span⟩ List.mem_concat_self)
  | @direct d node free _ a own =>
    exact answered_enter (posts_keepFork _ a none _) fun _ => Table.mem_keys_put.mpr (.inl own.symm)
  | @branch d e node free _ a own column body ih =>
    -- The question comes in before what its branch holds, and is kept when the branch is closed.
    obtain ⟨hclean, hkeys⟩ := closeBranch_clean he
    have hbody : Answered ((d.enter node .back).useColumn column) e :=
      ih (hd.enter_useColumn free column) hclean
    intro post hm hk
    rw [hkeys]
    rw [posts_closeBranch] at hm
    rcases hbody post hm hk with hkept | hm
    · exact .inl (.inr hkept)
    · rw [diagram_useColumn] at hm
      rcases mem_posts_enter.mp hm with rfl | hm
      · exact .inl (.inl own.symm)
      · exact .inr hm
  | _ => exact answered_of_posts rfl

/-- In the draft with the blocks and lanes of a root, all questions are kept unless there are
errors. -/
theorem written_answered {root : Block} (h : (written root).Clean) :
    ∀ post ∈ (written root).diagram.posts, post.kind = .question →
      post.id ∈ (written root).forks.keys := fun post hm hk =>
  ((written_grows root).answered (closed_initial root) h post hm hk).resolve_right
    List.not_mem_nil

end Draft

end Flowchart
