import Flowchart.Document
import Flowchart.Proofs.Flow.Completeness
import Flowchart.Proofs.Root.Nodes
import Flowchart.Proofs.Root.Refusal

/-!
# What a diagram without problems shows

A line, an attachment or a note directly in a root has its turn when all icons are placed. Either it
notes a problem then or something is drawn for it, and neither is ever taken back (`Keeps`). So if
building ends without a problem, every block that stands in the root is shown in the diagram, and
the diagram has no other nodes than icons of such blocks and those that nobody wrote (`build_shows`).

Nothing is said of the blocks that stand nowhere: they are not looked at, and no problem is noted of
them (`exists_unshown`).
-/

namespace Flowchart

/-- A diagram shows a block that stands in its root: by a node, by the column of the blocks in it, by
an edge, by an attachment or by a note. -/
inductive Diagram.Shows (diagram : Diagram) : Holder → Outline → Prop
  /-- The block has an icon of the kind that it becomes. -/
  | icon {s : Holder} {o : Outline} {n : Node} (mem : n ∈ diagram.nodes)
      (becomes : s.kind? o.block.name = some n.kind) (block : n.block = o.block) : Shows diagram s o
  /-- A lane is shown by the icons of its blocks, all in one column. -/
  | lane {o : Outline} (name : o.block.name = "lane") (column : Nat)
      (nodes : ∀ x ∈ o.children, ∃ n ∈ diagram.nodes, n.block = x.block ∧ n.column = column) :
      Shows diagram .root o
  /-- A line is an edge between the nodes that it names. -/
  | line {o : Outline} (name : o.block.name = "line") {source target : Reference}
      (mem : (Draft.lineEdge o.block.attributes source target).settle source.node target.node ∈
        diagram.edges) : Shows diagram .root o
  /-- A decoration is attached with its kind and attributes. -/
  | attachment {o : Outline} (name : o.block.name = "attach") {a : Attachment}
      (mem : a ∈ diagram.attachments) (kind : a.kind = o.block.label?.getD "attachment")
      (attributes : a.attributes = o.block.attributes.put "target" (.text a.target)) :
      Shows diagram .root o
  /-- A note is there with its text. -/
  | note {o : Outline} (name : o.block.name = "note") {n : Note} (mem : n ∈ diagram.notes)
      (text : n.text = o.block.attributes.label "Note") : Shows diagram .root o

namespace Draft

/-! ## What is never taken back -/

/-- One draft has all problems, edges, attachments and notes of another one. -/
structure Keeps (d e : Draft) : Prop where
  /-- No problem is taken back. -/
  problems : d.problems <+: e.problems
  /-- No edge is. -/
  edges : d.diagram.edges <+: e.diagram.edges
  /-- No decoration is. -/
  attachments : d.diagram.attachments <+: e.diagram.attachments
  /-- No note is. -/
  notes : d.diagram.notes <+: e.diagram.notes

/-- A draft keeps what it has. -/
theorem Keeps.refl (d : Draft) : Keeps d d :=
  ⟨List.prefix_refl _, List.prefix_refl _, List.prefix_refl _, List.prefix_refl _⟩

/-- What is kept by two steps is kept by both together. -/
theorem Keeps.trans {d e f : Draft} (h : Keeps d e) (k : Keeps e f) : Keeps d f :=
  ⟨h.problems.trans k.problems, h.edges.trans k.edges, h.attachments.trans k.attachments,
    h.notes.trans k.notes⟩

/-- No operation on a closed draft takes anything back. -/
theorem Step.keeps {d e : Draft} (h : d.Step e) (hd : d.Closed) : Keeps d e := by
  have hproblems := h.problems_prefix
  cases h with
  | enter node p free =>
    obtain ⟨_, -, he⟩ := enter_eq d node p
    rw [he] at hproblems ⊢
    exact ⟨hproblems, List.prefix_refl _, List.prefix_refl _, List.prefix_refl _⟩
  | claim name id known =>
    obtain ⟨_, -, he⟩ := claim_eq d name id
    rw [he] at hproblems ⊢
    exact ⟨hproblems, List.prefix_refl _, List.prefix_refl _, List.prefix_refl _⟩
  | connect edge source target joins =>
    exact ⟨hproblems, List.prefix_append _ _, List.prefix_refl _, List.prefix_refl _⟩
  | link edge source target joins =>
    exact ⟨hproblems, List.prefix_append _ _, List.prefix_refl _, List.prefix_refl _⟩
  | attach attachment =>
    exact ⟨hproblems, List.prefix_refl _, List.prefix_append _ _, List.prefix_refl _⟩
  | addNote note =>
    exact ⟨hproblems, List.prefix_refl _, List.prefix_refl _, List.prefix_append _ _⟩
  | settle =>
    rw [hd.settleEdges]
    exact .refl d
  | _ => exact ⟨hproblems, List.prefix_refl _, List.prefix_refl _, List.prefix_refl _⟩

/-- The end of a passage from a closed draft keeps all of its start. -/
theorem Passage.keeps {d e : Draft} {t : List Draft} (h : Passage d t e) (hd : d.Closed) :
    Keeps d e := by
  induction h with
  | done d => exact .refl d
  | step first _ ih => exact (first.keeps hd).trans (ih (first.closed hd))

/-- The end of a passage from a closed draft keeps all of every draft on the way. -/
theorem Passage.keeps_of_mem {d e x : Draft} {t : List Draft} (h : Passage d t e) (hd : d.Closed)
    (hx : x ∈ t) : Keeps x e := by
  induction h with
  | done d => exact absurd hx List.not_mem_nil
  | step first rest ih =>
    have hclosed := first.closed hd
    rcases List.mem_cons.mp hx with rfl | hx
    · exact rest.keeps hclosed
    · exact ih hclosed hx

/-! ## Turns -/

/-- What has its turn in a loop has it in a draft that the loop comes to from its start, and the loop
passes through the draft behind the turn. -/
theorem exists_turn {α : Type} {turn : Draft → α → Draft} {trail : Draft → α → List Draft}
    (hlast : ∀ d a, turn d a ∈ trail d a) {as : List α} {a : α} (ha : a ∈ as) (d : Draft) :
    ∃ before : List α, turn (before.foldl turn d) a ∈ foldTrail turn trail as d := by
  induction as generalizing d with
  | nil => exact absurd ha List.not_mem_nil
  | cons x as ih =>
    rcases List.mem_cons.mp ha with rfl | ha
    · exact ⟨[], List.mem_append_left _ (hlast d a)⟩
    · obtain ⟨before, hturn⟩ := ih ha (turn d x)
      exact ⟨x :: before, List.mem_append_right _ hturn⟩

/-- A draft with problems of a block more than another one has one of them. -/
theorem Exceeds.exists_problem {b : Block} {codes : List Code} {d e : Draft}
    (h : Exceeds b codes d e) : ∃ p ∈ d.problems, p.span = b.span ∧ p.fault.code ∈ codes := by
  obtain ⟨common, earlier, own, hsome, hofBlock, rfl, -⟩ := h
  obtain ⟨p, hp⟩ := List.exists_mem_of_ne_nil own hsome
  exact ⟨p, List.mem_append_left _ (List.mem_append_right _ hp), hofBlock p hp⟩

/-- An attachment whose target is known is added. -/
theorem exists_mem_attach {d : Draft} {b : Block} {target : Reference}
    (found : (d.resolve (b.attributes.get? "target") .attachmentTarget b.span).2 = some target) :
    ∃ a ∈ (d.attach b).diagram.attachments, a.kind = b.label?.getD "attachment" ∧
      a.attributes = b.attributes.put "target" (.text a.target) := by
  unfold attach
  dsimp only
  rw [found]
  exact ⟨_, List.mem_concat_self, rfl, rfl⟩

section

variable {root : Block}

/-- The finished diagram has all that is drawn while it is connected. -/
theorem keeps_of_mem_connectTrail {x : Draft}
    (hx : x ∈ (placeRoot root).1.connectTrail root (placeRoot root).2) : Keeps x (ofRoot root) := by
  obtain ⟨hplace, hedge⟩ := placeRoot_passage root
  have hclosed := hplace.closed_last (closed_initial root)
  exact (connectRoot_passage hclosed root hedge).keeps_of_mem hclosed hx

/-- It has all that the turn of an attachment comes to. -/
theorem exists_attach_turn {b : Block} (hb : b ∈ root.blocksCalled "attach") :
    ∃ before : List Block,
      Keeps ((before.foldl attach (placeRoot root).1).attach b) (ofRoot root) := by
  have hlast : ∀ (d : Draft) (b : Block), d.attach b ∈ d.attachTrail b := fun _ _ =>
    List.mem_cons_of_mem _ List.mem_cons_self
  obtain ⟨before, hturn⟩ := exists_turn hlast hb (placeRoot root).1
  refine ⟨before, keeps_of_mem_connectTrail ?_⟩
  simp only [connectTrail, List.mem_append, hturn, true_or]

/-- It has all that the turn of a note comes to. -/
theorem exists_note_turn {b : Block} (hb : b ∈ root.blocksCalled "note") :
    ∃ before : Draft, Keeps (before.addNote b) (ofRoot root) := by
  have hlast : ∀ (d : Draft) (b : Block), d.addNote b ∈ d.noteTrail b := fun _ _ =>
    List.mem_cons_of_mem _ List.mem_cons_self
  obtain ⟨before, hturn⟩ := exists_turn hlast hb
    ((root.blocksCalled "attach").foldl attach (placeRoot root).1)
  refine ⟨before.foldl addNote ((root.blocksCalled "attach").foldl attach (placeRoot root).1),
    keeps_of_mem_connectTrail ?_⟩
  simp only [connectTrail, List.mem_append, hturn, true_or, or_true]

/-- Every note of the root is one of the diagram. -/
theorem exists_note {b : Block} (hb : b ∈ root.blocksCalled "note") :
    ∃ n ∈ (ofRoot root).diagram.notes, n.text = b.attributes.label "Note" := by
  obtain ⟨before, hkeeps⟩ := exists_note_turn hb
  exact ⟨_, hkeeps.notes.subset List.mem_concat_self, rfl⟩

/-- The reference of a block of the root leads to no node, and that was noted as a problem. -/
def LacksNode (root b : Block) : Prop :=
  ∃ p ∈ (ofRoot root).problems, p.span = b.span ∧
    p.fault.code ∈ [Code.unknownReference, .invalidReference]

/-- An attachment of the root is one of the diagram, or a problem was noted of it. -/
theorem exists_attachment {b : Block} (hb : b ∈ root.blocksCalled "attach") :
    (∃ a ∈ (ofRoot root).diagram.attachments, a.kind = b.label?.getD "attachment" ∧
      a.attributes = b.attributes.put "target" (.text a.target)) ∨ LacksNode root b := by
  obtain ⟨before, hkeeps⟩ := exists_attach_turn hb
  have hplaced := (placed_planned root).closed.registry
  have hbefore : Draws (placeRoot root).1 (before.foldl attach (placeRoot root).1) [] :=
    foldl_draws_nil id _ (fun _ b h => attach_draws h b) hplaced
  have hknown := hbefore.agrees.registry hplaced
  -- When the attachment has its turn, its target is known or a problem is noted.
  generalize before.foldl attach (placeRoot root).1 = d at hkeeps hknown
  cases hfound : (d.resolve (b.attributes.get? "target") .attachmentTarget b.span).2 with
  | none =>
    obtain ⟨p, hp, hown⟩ := (attach_exceeds hknown hfound).exists_problem
    exact .inr ⟨p, hkeeps.problems.subset hp, hown⟩
  | some target =>
    obtain ⟨a, ha, hshown⟩ := exists_mem_attach hfound
    exact .inl ⟨a, hkeeps.attachments.subset ha, hshown⟩

/-- A line of the root is an edge of the diagram, or a problem was noted of it. -/
theorem exists_line {b : Block} (hb : b ∈ root.blocksCalled "line") :
    (∃ source target : Reference,
      (lineEdge b.attributes source target).settle source.node target.node ∈
        (ofRoot root).diagram.edges) ∨ LacksNode root b := by
  have hledger := ofRoot_ledger root
  cases hline : (ofRoot root).lineOf? b with
  | some e =>
    obtain ⟨source, target, -, -, rfl⟩ := lineOf?_eq_some.mp hline
    refine .inl ⟨source, target, ?_⟩
    rw [hledger.edges]
    exact List.mem_append_left _ (List.mem_append_right _ (List.mem_filterMap.mpr ⟨b, hb, hline⟩))
  | none =>
    -- One of its ends is no node, when all icons are placed as well as in the end.
    rw [hledger.agrees.lineOf?] at hline
    obtain ⟨before, after, hlines⟩ := List.append_of_mem hb
    have hexceeds := connected_line (placed_planned root) (root.blocksCalled "attach")
      (root.blocksCalled "note") (placeRoot root).2 before after (lineOf?_eq_none.mp hline)
    rw [← hlines, ← ofRoot_eq_connected] at hexceeds
    exact .inr hexceeds.exists_problem

/-! ## Blocks directly in a root -/

/-- A line, an attachment or a note directly in a root is shown, or its reference leads to no node. -/
theorem shows_of_isRootOnly {o : Outline} (ho : o ∈ root.outline.children)
    (waits : isRootOnly o.block.name = true) :
    (ofRoot root).diagram.Shows .root o ∨ LacksNode root o.block := by
  have hchildren : root.outline.children = root.blocks.map Block.outline := outlines_eq root.body
  rw [hchildren] at ho
  obtain ⟨b, hb, rfl⟩ := List.mem_map.mp ho
  have hcalled : ∀ name, b.name = name → b ∈ root.blocksCalled name := fun name hname =>
    List.mem_filter.mpr ⟨hb, decide_eq_true hname⟩
  simp only [isRootOnly, List.contains_iff_mem, List.mem_cons, List.not_mem_nil,
    or_false] at waits
  rcases waits with hline | hattach | hnote
  · refine (exists_line (hcalled _ hline)).imp_left ?_
    rintro ⟨source, target, hedge⟩
    exact .line hline hedge
  · refine (exists_attachment (hcalled _ hattach)).imp_left ?_
    rintro ⟨a, ha, hkind, hattributes⟩
    exact .attachment hattach ha hkind hattributes
  · obtain ⟨n, hn, htext⟩ := exists_note (hcalled _ hnote)
    exact .inl (.note hnote hn htext)

/-- If no problem was noted, every block that stands in the root is shown. -/
theorem shows_ofRoot (hclean : (ofRoot root).problems = []) {s : Holder} {o : Outline}
    (h : Stands root s o) : (ofRoot root).diagram.Shows s o := by
  have hnone : ∀ p, p ∉ (ofRoot root).problems := fun p hp => List.not_mem_nil (hclean ▸ hp)
  cases depicted_ofRoot hclean h with
  | icon mem becomes block =>
    obtain ⟨n, hn, rfl⟩ := List.mem_map.mp mem
    exact .icon hn becomes block
  | elsewhere inRoot becomes =>
    subst inRoot
    have hname : o.block.name = "lane" ∨ isRootOnly o.block.name = true := by
      by_contra hicon
      exact nomatch (if_neg hicon).symm.trans becomes
    rcases hname with hlane | hwaits
    · obtain ⟨column, hblocks⟩ := lane_ofRoot root hlane h.mem_children
      refine .lane hlane column fun x hx => ?_
      obtain ⟨origin, ho, hblock, hcolumn⟩ := (hblocks x hx).resolve_right
        fun ⟨p, hp, _⟩ => hnone p hp
      obtain ⟨n, hn, rfl⟩ := List.mem_map.mp ho
      exact ⟨n, hn, hblock, hcolumn⟩
    · exact (shows_of_isRootOnly h.mem_children hwaits).resolve_right fun ⟨p, hp, _⟩ => hnone p hp

end

end Draft

open Draft

/-! ## Built diagrams -/

/-- If building ends without a problem, every block that stands in the root is shown in the diagram:
by a node of the kind that it becomes, by the column of the blocks in it, by an edge, by an attachment
or by a note. And every node of the diagram is one that nobody wrote, or of a block that stands in the
root. -/
theorem build_shows (document : List Statement) (diagram : Diagram)
    (clean : Diagram.build document = (some diagram, [])) :
    ∃ root, rootBlock? document = some root ∧
      (∀ s o, Stands root s o → diagram.Shows s o) ∧
      ∀ n ∈ diagram.nodes, n.origin.IsAdded ∨
        ∃ s o, Stands root s o ∧ s.kind? o.block.name = some n.kind ∧ n.block = o.block := by
  obtain ⟨root, hroot, -, rfl⟩ := exists_root_of_build (congrArg Prod.fst clean)
  rw [Diagram.build, hroot] at clean
  dsimp only at clean
  obtain ⟨-, hclean⟩ := Prod.mk.inj clean
  refine ⟨root, hroot, fun s o h => shows_ofRoot hclean h, fun n hn => ?_⟩
  rcases node_ofRoot root hn with hadded | haccounted
  · exact .inl hadded
  · cases haccounted with
    | icon own becomes block => exact .inr ⟨_, _, own, becomes, block⟩
    | loopEnd kind block => exact .inl ⟨"loop_end", by simp, kind, _, block⟩

/-- A root with every kind of block that a diagram can show. -/
def mixedSource : String :=
  "drakon \"d\" \x7b lane \"l\" \x7b " ++
    "question \"q\" \x7b yes = \x7b action \"a\" \x7b\x7d \x7d \x7d " ++
    "choice \"c\" \x7b case \"x\" \x7b for_each \"g\" \x7b action \"b\" \x7b\x7d \x7d \x7d " ++
    "else \"y\" \x7b\x7d \x7d \x7d " ++
    "line \x7b from = \"a\" to = \"c\" \x7d attach \"timer\" \x7b target = \"b\" \x7d " ++
    "note \x7b text = \"n\" \x7d \x7d"

/-- All of them are shown. -/
theorem build_shows_mixed :
    ∃ diagram, Diagram.build (Document.read mixedSource).statements = (some diagram, []) ∧
      diagram.nodes.map Node.id =
        ["d@start", "q", "a", "c", "x", "g", "b", "g_end", "y", "d@end"] ∧
      diagram.attachments.map Attachment.target = ["b"] ∧ diagram.notes.map Note.text = ["n"] ∧
      ∃ root, rootBlock? (Document.read mixedSource).statements = some root ∧
        (∀ s o, Stands root s o → diagram.Shows s o) ∧
        ∀ n ∈ diagram.nodes, n.origin.IsAdded ∨
          ∃ s o, Stands root s o ∧ s.kind? o.block.name = some n.kind ∧ n.block = o.block := by
  obtain ⟨hproblems, hread⟩ : (Diagram.build (Document.read mixedSource).statements).2 = [] ∧
      (Diagram.build (Document.read mixedSource).statements).1.any (fun diagram =>
        diagram.nodes.map Node.id =
          ["d@start", "q", "a", "c", "x", "g", "b", "g_end", "y", "d@end"] ∧
        diagram.attachments.map Attachment.target = ["b"] ∧
        diagram.notes.map Note.text = ["n"]) = true := by decide +kernel
  obtain ⟨diagram, hdiagram, hread⟩ := (Option.any_eq_true _ _).mp hread
  obtain ⟨hnodes, hattachments, hnotes⟩ := of_decide_eq_true hread
  have hclean : Diagram.build (Document.read mixedSource).statements = (some diagram, []) :=
    Prod.ext hdiagram hproblems
  exact ⟨diagram, hclean, hnodes, hattachments, hnotes, build_shows _ diagram hclean⟩

/-- An action in the body of another one, where nothing looks for it. -/
def innerActionSource : String :=
  "drakon \"d\" \x7b action \"a\" \x7b action \"b\" \x7b\x7d \x7d \x7d"

/-- A block below the root can be shown nowhere in the diagram of a source that is read without any
diagnostic. -/
theorem exists_unshown :
    ¬ ∀ source root diagram, (Document.read source).diagnostics = [] →
      rootBlock? (Document.read source).statements = some root →
      (Document.read source).diagram = some diagram →
      ∀ o ∈ Outline.allOf root.outline.children, ∃ s, diagram.Shows s o := by
  intro hclaim
  obtain ⟨hdiagnostics, hread⟩ : (Document.read innerActionSource).diagnostics = [] ∧
      (rootBlock? (Document.read innerActionSource).statements).any (fun root =>
        (Document.read innerActionSource).diagram.any fun diagram =>
          (Outline.allOf root.outline.children).any fun o => o.block.name = "action" ∧
            diagram.nodes.all fun n => n.block.labels ≠ o.block.labels) = true := by
    decide +kernel
  obtain ⟨root, hroot, hread⟩ := (Option.any_eq_true _ _).mp hread
  obtain ⟨diagram, hdiagram, hread⟩ := (Option.any_eq_true _ _).mp hread
  obtain ⟨o, ho, hread⟩ := List.any_eq_true.mp hread
  obtain ⟨hname, hlabels⟩ := of_decide_eq_true hread
  obtain ⟨s, hshown⟩ := hclaim innerActionSource root diagram hdiagnostics hroot hdiagram o ho
  -- An action can be shown by a node only.
  cases hshown with
  | icon mem becomes block =>
    exact of_decide_eq_true (List.all_eq_true.mp hlabels _ mem) (congrArg Block.labels block)
  | _ name => exact absurd (name.symm.trans hname) (by decide)

end Flowchart
