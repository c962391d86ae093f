import Flowchart.Proofs.Draft.Icons

/-!
# What no operation changes of a node

A node is labelled and described anew while a diagram is built, but its id, its kind, its column and
the block it was written as stay. `Diagram.origins` lists these of every node, in the order of the
diagram; `Diagram.posts` leaves the blocks out. Every operation keeps the list together and adds a
node at one of its ends at most (`Step.infix_origins`).
-/

namespace Flowchart

/-- What no operation changes of a node, its block left aside. -/
structure Post where
  /-- The id of the node. -/
  id : String
  /-- Its kind. -/
  kind : NodeKind
  /-- Its column. -/
  column : Nat

/-- What no operation changes of a node. -/
structure Origin extends Post where
  /-- The block that it is the icon of. -/
  block : Block

/-- The id, the kind and the column of a node. -/
def Node.post (n : Node) : Post := ⟨n.id, n.kind, n.column⟩

/-- The id, the kind and the column of a node, and its block. -/
def Node.origin (n : Node) : Origin := ⟨n.post, n.block⟩

/-- The posts of a diagram's nodes, in the order of the diagram. -/
def Diagram.posts (d : Diagram) : List Post := d.nodes.map Node.post

/-- The origins of a diagram's nodes, in the order of the diagram. -/
def Diagram.origins (d : Diagram) : List Origin := d.nodes.map Node.origin

/-- The posts are those of the origins. -/
theorem Diagram.posts_eq_origins (d : Diagram) : d.posts = d.origins.map Origin.toPost := by
  rw [posts, origins, List.map_map]
  rfl

namespace Draft

/-- A node of this kind has the id. -/
def HasKind (d : Draft) (id : String) (kind : NodeKind) : Prop :=
  ∃ post ∈ d.diagram.posts, post.id = id ∧ post.kind = kind

/-- An arm and its choice are icons of their kinds, and the end of the arm is a node. -/
structure ArmStands (d : Draft) (arm : Arm) : Prop where
  /-- The choice is one. -/
  choice : d.HasKind arm.choice .choice
  /-- The head of the arm has its kind. -/
  id : d.HasKind arm.id arm.kind.nodeKind
  /-- The end of the arm is a node. -/
  armEnd : ∀ last ∈ arm.armEnd, d.hasNode last

/-! ## Posts -/

/-- A change of a node that keeps its origin keeps all origins. -/
theorem origins_change (d : Diagram) (id : String) {change : Node → Node}
    (h : ∀ n, (change n).origin = n.origin) : (d.change id change).origins = d.origins := by
  unfold Diagram.change Diagram.origins
  exact map_changeFirst h _

/-- A label changes neither the post nor the block of a node. -/
theorem origins_setLabel (d : Draft) (id label : String) :
    (d.setLabel id label).diagram.origins = d.diagram.origins :=
  origins_change d.diagram id fun _ => rfl

/-- An attribute changes neither the post nor the block of a node. -/
theorem origins_setAttribute (d : Draft) (id key : String) (value : Value) :
    (d.setAttribute id key value).diagram.origins = d.diagram.origins :=
  origins_change d.diagram id fun _ => rfl

/-- A label moves no node. -/
theorem posts_setLabel (d : Draft) (id label : String) :
    (d.setLabel id label).diagram.posts = d.diagram.posts := by
  rw [Diagram.posts_eq_origins, origins_setLabel, ← Diagram.posts_eq_origins]

/-- An attribute moves no node. -/
theorem posts_setAttribute (d : Draft) (id key : String) (value : Value) :
    (d.setAttribute id key value).diagram.posts = d.diagram.posts := by
  rw [Diagram.posts_eq_origins, origins_setAttribute, ← Diagram.posts_eq_origins]

/-- A node is entered at one end of the origins. -/
theorem origins_enter (d : Draft) (node : Node) (p : Placement) :
    (d.enter node p).diagram.origins = p.add node.origin d.diagram.origins := by
  obtain ⟨a, -, he⟩ := enter_eq d node p
  rw [he]
  unfold Diagram.origins
  dsimp only
  rw [p.map_add]

/-- Every operation keeps the origins together and in their order. -/
theorem Step.infix_origins {d e : Draft} (h : d.Step e) :
    d.diagram.origins <:+: e.diagram.origins := by
  cases h with
  | enter node p free =>
    rw [origins_enter]
    cases p with
    | back => exact ⟨[], [node.origin], rfl⟩
    | front => exact ⟨[node.origin], [], List.append_nil _⟩
  | claim name id known =>
    obtain ⟨a, -, he⟩ := claim_eq d name id
    exact he.symm ▸ List.infix_refl _
  | setLabel id label =>
    exact (origins_setLabel d id label).symm ▸ List.infix_refl _
  | setAttribute id key value =>
    exact (origins_setAttribute d id key value).symm ▸ List.infix_refl _
  | settle =>
    rw [settleEdges_eq]
    exact List.infix_refl _
  | _ => exact List.infix_refl _

/-- A passage keeps the origins together and in their order. -/
theorem Passage.infix_origins {d e : Draft} {t : List Draft} (h : Passage d t e) :
    d.diagram.origins <:+: e.diagram.origins := by
  induction h with
  | done d => exact List.infix_refl _
  | step first _ ih => exact first.infix_origins.trans ih

/-- A passage keeps the posts together and in their order. -/
theorem Passage.infix_posts {d e : Draft} {t : List Draft} (h : Passage d t e) :
    d.diagram.posts <:+: e.diagram.posts := by
  rw [Diagram.posts_eq_origins, Diagram.posts_eq_origins]
  exact h.infix_origins.map _

/-- A node keeps its kind. -/
theorem HasKind.mono {d e : Draft} (hx : d.diagram.posts <:+: e.diagram.posts) {id : String}
    {kind : NodeKind} (h : d.HasKind id kind) : e.HasKind id kind := by
  obtain ⟨post, hm, hp⟩ := h
  exact ⟨post, hx.subset hm, hp⟩

/-- An arm that stands stays so. -/
theorem ArmStands.mono {d e : Draft} {t : List Draft} (hx : Passage d t e) {arm : Arm}
    (h : d.ArmStands arm) : e.ArmStands arm :=
  ⟨h.choice.mono hx.infix_posts, h.id.mono hx.infix_posts,
    fun last hl => hx.extends.hasNode _ (h.armEnd last hl)⟩

/-- The ids of the nodes, by their posts. -/
theorem map_id_eq_posts (d : Diagram) : d.nodes.map Node.id = d.posts.map Post.id := by
  rw [Diagram.posts, List.map_map]
  rfl

/-- Nodes with one id have one origin. -/
theorem Registry.origin_eq {d : Draft} (hd : d.Registry) {a b : Origin}
    (ha : a ∈ d.diagram.origins) (hb : b ∈ d.diagram.origins) (hid : a.id = b.id) : a = b := by
  have hids : d.diagram.nodes.map Node.id = d.diagram.origins.map (·.id) := by
    rw [Diagram.origins, List.map_map]
    rfl
  exact List.inj_on_of_nodup_map (hids ▸ hd.nodup) ha hb hid

/-- What has a kind is a node. -/
theorem HasKind.hasNode {d : Draft} (hd : d.Registry) {id : String} {kind : NodeKind}
    (h : d.HasKind id kind) : d.hasNode id := by
  obtain ⟨post, hm, rfl, -⟩ := h
  rw [hd.hasNode_iff_mem, map_id_eq_posts]
  exact List.mem_map_of_mem hm

/-- An arm that stands is known. -/
theorem ArmStands.knowsArm {d : Draft} (hd : d.Registry) {arm : Arm} (h : d.ArmStands arm) :
    d.KnowsArm arm :=
  ⟨h.choice.hasNode hd, h.id.hasNode hd, h.armEnd⟩

/-- The node entered last has the last post. -/
theorem posts_enter (d : Draft) (node : Node) :
    (d.enter node .back).diagram.posts = d.diagram.posts ++ [node.post] := by
  obtain ⟨a, -, he⟩ := enter_eq d node .back
  rw [he]
  unfold Diagram.posts
  dsimp only
  rw [Placement.map_add]
  rfl

/-- The posts after a node has been entered at either end. -/
theorem mem_posts_enter {d : Draft} {node : Node} {p : Placement} {post : Post} :
    post ∈ (d.enter node p).diagram.posts ↔ post = node.post ∨ post ∈ d.diagram.posts := by
  obtain ⟨a, -, he⟩ := enter_eq d node p
  rw [he]
  unfold Diagram.posts
  dsimp only
  rw [p.map_add, (p.add_perm _ _).mem_iff, List.mem_cons]

/-- A node that has been entered has its kind. -/
theorem hasKind_enter (d : Draft) (node : Node) (p : Placement) :
    (d.enter node p).HasKind node.id node.kind :=
  ⟨node.post, mem_posts_enter.mpr (.inl rfl), rfl, rfl⟩

/-! ## What the operations come to -/

/-- A problem that was reported does not matter to claiming a name. -/
theorem claim_report (d : Draft) (fault : BuildFault) (span : Span) (name id : String) :
    (d.report fault span).claim name id = (d.claim name id).report fault span := by
  unfold claim
  split
  · rfl
  · unfold report
    dsimp only
    split <;> rfl

/-- A problem that was reported does not matter to claiming names. -/
theorem claimAll_report (names : List String) (id : String) (d : Draft) (fault : BuildFault)
    (span : Span) :
    (d.report fault span).claimAll names id = (d.claimAll names id).report fault span := by
  induction names generalizing d with
  | nil => rfl
  | cons name names ih =>
    rw [claimAll, List.foldl_cons, claim_report, ← claimAll, ih]
    rfl

/-- A problem that was reported does not matter to entering a node. -/
theorem enter_report (d : Draft) (fault : BuildFault) (span : Span) (node : Node) (p : Placement) :
    (d.report fault span).enter node p = (d.enter node p).report fault span := by
  unfold enter
  dsimp only
  cases p with
  | back => rw [← claimAll_report]; rfl
  | front => rw [← claimAll_report]; rfl

/-- A node is refused for its id or entered. -/
theorem register_cases (d : Draft) (node : Node) (p : Placement) :
    (∃ first, d.register node p =
        (d.report (.duplicateNode node.id first) node.block.span, false) ∧
      d.hasNode node.id = true) ∨
      d.hasNode node.id = false ∧ d.register node p = (d.enter node p, true) := by
  unfold register
  split
  · rename_i first hfind
    refine .inl ⟨first, rfl, ?_⟩
    rw [hasNode, Table.has, hfind]
    rfl
  · rename_i hfree
    refine .inr ⟨?_, rfl⟩
    rw [hasNode, Table.has, hfree]
    rfl

/-- A node with a free id is entered. -/
theorem register_of_free {d : Draft} {node : Node} (free : d.hasNode node.id = false)
    (p : Placement) : d.register node p = (d.enter node p, true) := by
  rcases register_cases d node p with ⟨-, -, used⟩ | ⟨-, he⟩
  · exact absurd (free.symm.trans used) Bool.noConfusion
  · exact he

/-- Nothing is written in a branch: a problem. -/
theorem placeBranch_blank {b : Branch} (hb : b.isWritten = false) (a : Answer) (d : Draft) :
    placeBranch b a d = d.report (.blankBranch a.question a.side) a.span := by
  obtain ⟨isWritten, attributes, icons⟩ := b
  rw [Branch.isWritten] at hb
  rw [placeBranch, hb]
  rfl

/-- The icon of an arm is no question. -/
theorem nodeKind_ne_question (kind : ArmKind) : kind.nodeKind ≠ .question := by
  cases kind <;> exact NodeKind.noConfusion

end Draft

end Flowchart
