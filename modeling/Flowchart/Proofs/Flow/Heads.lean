import Flowchart.Proofs.Flow.Order

/-!
# The heads of branches

The head of a branch stands right behind its question (`BranchRun.exists_head`), so no two questions
have the same one. If the branch has a new column to itself, its head is the first node in the
column, and no edge enters it but the one from the question (`BranchRun.leaves_of_enters`).
-/

namespace Flowchart

/-- What stands before and behind an element that occurs once. -/
theorem append_cons_inj_of_nodup {α : Type} {a : α} {u v x y : List α}
    (hl : (u ++ a :: x).Nodup) (h : u ++ a :: x = v ++ a :: y) : u = v ∧ x = y := by
  have hbefore : ∀ {u x : List α}, (u ++ a :: x).Nodup → a ∉ u := fun hl hm =>
    (List.nodup_cons.mp (List.nodup_middle.mp hl)).1 (List.mem_append_left _ hm)
  exact (append_cons_inj (hbefore hl) (hbefore (h ▸ hl))).mp h

/-- Right before an element that occurs once stands one other only. -/
theorem eq_of_pairs {α : Type} {l : List α} (hl : l.Nodup) {a b c : α}
    (ha : [a, c] <:+: l) (hb : [b, c] <:+: l) : a = b := by
  obtain ⟨s, t, rfl⟩ := ha
  obtain ⟨s', t', h⟩ := hb
  have hnodup : ((s ++ [a]) ++ c :: t).Nodup := by simpa using hl
  have hsplit : (s ++ [a]) ++ c :: t = (s' ++ [b]) ++ c :: t' := by simpa using h.symm
  obtain ⟨hsame, -⟩ := append_cons_inj_of_nodup hnodup hsplit
  exact List.head_eq_of_cons_eq (List.append_inj' hsame rfl).2

/-- The branch of a question that has a node right behind it starts with this node, if it ends in
the same column. -/
theorem Diagram.HeadsBranch.eq_of_behind {d : Diagram} (hd : (d.nodes.map Node.id).Nodup)
    {asked next : Post} (hnext : [asked, next] <:+: d.posts) {last first : String}
    (h : d.HeadsBranch asked.id last first)
    (hlast : ∃ post ∈ d.posts, post.id = last ∧ post.column = next.column) : first = next.id := by
  rw [Draft.map_id_eq_posts] at hd
  obtain ⟨before, other, between, head, after, hposts, hid, rfl, hbetween, tail, htail, rfl,
    hcolumn⟩ := h
  obtain ⟨s, t, hsplit⟩ := hnext
  obtain ⟨post, hpost, hsame, hlast⟩ := hlast
  -- The question is one node, so what stands behind it is the same in both splits of the posts.
  have hother : other ∈ d.posts := hposts ▸ List.mem_append_right _ List.mem_cons_self
  have hasked : asked ∈ d.posts := hsplit ▸ by simp
  obtain rfl := List.inj_on_of_nodup_map hd hother hasked hid
  rw [List.append_assoc, List.cons_append, List.cons_append, List.nil_append] at hsplit
  have hnodup := List.Nodup.of_map _ hd
  rw [hposts] at hnodup
  obtain ⟨-, hbehind⟩ := append_cons_inj_of_nodup hnodup (hposts.symm.trans hsplit.symm)
  cases between with
  | nil => rw [(List.cons.inj hbehind).1]
  | cons post' between =>
    -- The node right behind the question would be in another column than the end of the branch.
    obtain ⟨rfl, -⟩ := List.cons.inj hbehind
    have htail : tail ∈ d.posts := hposts ▸ List.mem_append_right _
      (List.mem_cons_of_mem _ (List.mem_append_right _ htail))
    obtain rfl := List.inj_on_of_nodup_map hd hpost htail hsame
    exact absurd (hlast.symm.trans hcolumn) (hbetween _ List.mem_cons_self)

namespace Draft

/-- Nothing stands in a column that is not in use, and it is not the primary column. -/
theorem columnIds_of_notMem {root : Block} {asked : Draft} {column : Nat}
    (hasked : asked ∈ initial root :: writtenTrail root) (hnew : column ∉ asked.columns.keys) :
    asked.columnIds column = [] ∧ column ≠ primaryColumn := by
  constructor
  · rw [columnIds, Table.get?_eq_none_iff.mpr hnew]
    rfl
  · rintro rfl
    refine hnew ?_
    have hinitial : primaryColumn ∈ (initial root).columns.keys := List.mem_singleton_self _
    rcases List.mem_cons.mp hasked with rfl | hasked
    · exact hinitial
    · exact (((written_expands root).passage (closed_initial root).registry).extends_of_mem
        hasked).columns _ hinitial

/-- Outside of a choice, a block that would open an arm has not the kind of one. -/
theorem ofName_ne_nodeKind {name : String} {kind : ArmKind}
    (h : ArmKind.ofName? name = some kind) : NodeKind.ofName name ≠ kind.nodeKind := by
  rw [ArmKind.name_of_ofName? h]
  cases kind <;> decide

section

variable {P : Outline → Prop} {drafts : List Draft} {question last first : String} {fork : Fork}
  {o : Outline} {column : Nat} {opened closed : Draft} {entries : List Entry}

/-- A branch that ends somewhere starts right behind its question. -/
theorem BranchRun.starts (h : BranchRun P drafts question fork o column opened closed entries)
    (hl : fork.branchEnd = some last) : ∃ (entry : Entry) (c : Nat),
      (∃ before, opened.diagram.origins = before ++ [⟨⟨question, .question, c⟩, o.block⟩]) ∧
      opened.diagram.origins ++ [entry.origin column] <+: closed.diagram.origins ∧
      last ∈ closed.columnIds column := by
  obtain ⟨before, c, horigins⟩ := h.head
  obtain ⟨attributes, icons, -, hfills, -⟩ := h.leads
  have hends := h.branchEnd.symm.trans hl
  cases entries with
  | nil => exact nomatch hends
  | cons entry entries =>
    refine ⟨entry, c, ⟨before, horigins⟩, hfills.first_origin rfl, ?_⟩
    rw [hfills.columnIds]
    exact List.mem_append_right _ (List.mem_of_getLast? hends)

variable {root : Block}
  (h : BranchRun P (initial root :: writtenTrail root) question fork o column opened closed entries)
include h

/-- The head of a branch is the icon that its blocks have put right behind the question. -/
theorem BranchRun.exists_head (hl : fork.branchEnd = some last) : ∃ entry : Entry,
    opened.diagram.origins ++ [entry.origin column] <+: closed.diagram.origins ∧
    [question, entry.id] <:+: (ofRoot root).diagram.nodes.map Node.id ∧
    ∀ first, (ofRoot root).diagram.HeadsBranch question last first → first = entry.id := by
  obtain ⟨entry, c, ⟨before, horigins⟩, hfirst, hlast⟩ := h.starts hl
  have hbehind : [⟨question, .question, c⟩, (entry.origin column).toPost] <:+:
      (ofRoot root).diagram.posts := by
    refine List.IsInfix.trans ?_ (infix_posts_ofRoot h.closed_mem)
    rw [horigins, List.append_assoc] at hfirst
    rw [Diagram.posts_eq_origins]
    exact ((List.suffix_append _ _).isInfix.trans hfirst.isInfix).map Origin.toPost
  have hend : ∃ post ∈ (ofRoot root).diagram.posts, post.id = last ∧ post.column = column := by
    rw [(registry_of_mem_writtenTrail h.closed_mem).columnIds_eq_posts] at hlast
    obtain ⟨post, hpost, hid⟩ := List.mem_map.mp hlast
    obtain ⟨hpost, hcolumn⟩ := List.mem_filter.mp hpost
    exact ⟨post, (infix_posts_ofRoot h.closed_mem).subset hpost, hid, of_decide_eq_true hcolumn⟩
  refine ⟨entry, hfirst, ?_, fun first heads => ?_⟩
  · rw [map_id_eq_posts]
    exact hbehind.map Post.id
  · exact heads.eq_of_behind (registry_ofRoot root).nodup hbehind hend

/-- A node with the id of a question was written as the question's block. -/
theorem BranchRun.block_eq {n : Node} (hn : n ∈ (ofRoot root).diagram.nodes)
    (hid : n.id = question) : n.block = o.block := by
  obtain ⟨before, c, horigins⟩ := h.head
  have hmem := (infix_origins_ofRoot h.opened_mem).subset
    (horigins ▸ List.mem_append_right _ (List.mem_singleton_self _))
  exact congrArg Origin.block
    ((registry_ofRoot root).origin_eq (List.mem_map_of_mem hn) hmem hid)

/-! ## Branches in new columns -/

/-- The head of a branch in an empty column stands above all others in it. -/
theorem BranchRun.columnIds {entry : Entry}
    (hfirst : opened.diagram.origins ++ [entry.origin column] <+: closed.diagram.origins)
    (hempty : opened.columnIds column = []) (hprimary : column ≠ primaryColumn)
    {front back : List Post} (hframed : Framed (written root) (ofRoot root) front back) :
    ∃ rest, (ofRoot root).columnIds column = entry.id :: rest := by
  obtain ⟨more, hmore⟩ := hfirst.trans ((written_expands root).prefix_origins_of_mem h.closed_mem)
  have hopened : opened.diagram.posts.filter (·.column = column) = [] := by
    rw [(registry_of_mem_writtenTrail h.opened_mem).columnIds_eq_posts] at hempty
    exact List.map_eq_nil_iff.mp hempty
  have hfront : front.filter (·.column = column) = [] := by
    refine List.filter_eq_nil_iff.mpr fun post hpost => ?_
    rw [(hframed.front post hpost).2, decide_eq_true_eq]
    exact hprimary.symm
  -- In front of the head stand the start icon, in the primary column, and what was there before.
  have hposts : (written root).diagram.posts =
      opened.diagram.posts ++ (entry.origin column).toPost :: more.map Origin.toPost := by
    rw [Diagram.posts_eq_origins, ← hmore, List.map_append, List.map_append, List.append_assoc,
      ← Diagram.posts_eq_origins]
    rfl
  have hcolumn : (entry.origin column).toPost.column = column := rfl
  refine ⟨((more.map Origin.toPost ++ back).filter (·.column = column)).map Post.id, ?_⟩
  rw [(registry_ofRoot root).columnIds_eq_posts, hframed.posts, hposts, List.append_assoc,
    List.append_assoc, List.filter_append, List.filter_append, hfront, hopened, List.nil_append,
    List.nil_append, List.cons_append, List.filter_cons, if_pos (decide_eq_true hcolumn)]
  rfl

/-- What enters the head of a branch that has a new column to itself leaves the question, and shows
the way into the branch. -/
theorem BranchRun.leaves_of_enters (hroot : root.Unguided)
    (hl : fork.branchEnd = some last)
    (heads : (ofRoot root).diagram.HeadsBranch question last first)
    (hempty : opened.columnIds column = []) (hprimary : column ≠ primaryColumn) {e : Edge}
    (he : e ∈ (ofRoot root).diagram.edges) (henters : e.enters = first) :
    e.leaves = question ∧ e.flag "branch_lane" = true := by
  have hregistry := registry_ofRoot root
  have hnodup := hregistry.nodup
  obtain ⟨entry, hfirst, hbehind, hhead⟩ := h.exists_head hl
  obtain rfl := hhead first heads
  have hwritten := hfirst.trans ((written_expands root).prefix_origins_of_mem h.closed_mem)
  have hentry : entry.origin column ∈ (written root).diagram.origins :=
    hwritten.subset (List.mem_append_right _ (List.mem_singleton_self _))
  obtain ⟨front, back, hframed, hopening⟩ := ofRoot_framed hroot
  cases hframed.descends hroot hopening e he with
  | head isHead =>
    -- The other question would stand right before the head as well.
    obtain ⟨kept, ends, others⟩ := isHead
    rename_i question' fork' last' first'
    obtain rfl : first' = entry.id := henters
    obtain ⟨_, _, _, _, _, hrun⟩ := (keptFork_ofRoot kept).branch.resolve_left fun hnone =>
      nomatch hnone.symm.trans ends
    obtain ⟨other, -, hother, hsame⟩ := hrun.exists_head ends
    rw [← hsame _ others] at hother
    exact ⟨eq_of_pairs hnodup hother hbehind, rfl⟩
  | sequence pair =>
    -- The head is the first node in its column, so there is none before it.
    obtain ⟨c, hpair⟩ := hregistry.sublist_of_mem_columnPairs pair
    obtain ⟨rest, hcolumn⟩ := h.columnIds hfirst hempty hprimary hframed
    rw [Edge.ends, henters] at hpair
    obtain rfl : c = column := hregistry.column_eq
      (hpair.subset (List.mem_cons_of_mem _ (List.mem_singleton_self _)))
      (hcolumn ▸ List.mem_cons_self)
    have hids := hregistry.nodup_columnIds c
    rw [hcolumn] at hpair hids
    exact absurd (List.singleton_sublist.mp hpair.tail) (List.nodup_cons.mp hids).1
  | @arm arm kept ends =>
    -- The head would be an arm, and yet no block of a branch is one.
    obtain ⟨o', column', opened', closed', hrun⟩ := keptArm_ofRoot kept
    obtain ⟨before, horigins, -⟩ := hrun.head
    obtain ⟨-, harm⟩ := Prod.mk.inj ends
    have hmem := (infix_origins_ofRoot hrun.opened_mem).subset
      (horigins ▸ List.mem_append_right _ (List.mem_singleton_self _))
    have hsame := hregistry.origin_eq
      ((infix_origins_ofRoot (written_expands root).leads.last_mem).subset hentry) hmem
      (henters.symm.trans harm)
    have hkind : NodeKind.ofName entry.outline.block.name = arm.kind.nodeKind :=
      congrArg (fun origin : Origin => origin.kind) hsame
    have hblock : entry.outline.block = o'.block := congrArg Origin.block hsame
    exact absurd (hblock ▸ hkind) (ofName_ne_nodeKind hrun.named)
  | ending leaves enters =>
    -- The head was written, and so is none of the icons behind the written ones.
    rw [map_id_eq_posts, hframed.posts, List.map_append, List.nodup_append] at hnodup
    refine absurd henters.symm (hnodup.2.2 entry.id ?_ _ enters)
    rw [List.map_append, Diagram.posts_eq_origins]
    exact List.mem_append_right _ (List.mem_map_of_mem (List.mem_map_of_mem hentry))

end

end Draft

end Flowchart
