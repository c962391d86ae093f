import Flowchart.Proofs.Root.Presence

/-!
# Lines, attachments, notes and lanes in other places

Directly in a root these blocks become no icons: they are drawn, or a problem is noted of them. In a
lane and in the branch of a question, a line, an attachment or a note is refused as well. Everywhere
else blocks become icons whatever their names are, so a node that has the kind of such a block tells
where the block stands (`build_structural`).
-/

namespace Flowchart

namespace Holder

variable {s : Holder} {name : String} {kind : NodeKind}

/-- An icon has the kind that its block is named for, unless it is the head of an arm. -/
theorem name_of_kind? (becomes : s.kind? name = some kind) :
    kind.name = name ∨ ∃ arm, ArmKind.ofName? name = some arm ∧ kind = arm.nodeKind := by
  have hown : ∀ other, some (NodeKind.ofName name) = some other → other.name = name := by
    intro other h
    rw [← Option.some.inj h]
    exact Draft.name_ofName name
  cases s with
  | root | lane | branch =>
    unfold kind? at becomes
    dsimp only at becomes
    split at becomes
    · exact nomatch becomes
    · exact .inl (hown _ becomes)
  | choice =>
    unfold kind? at becomes
    dsimp only at becomes
    cases harm : ArmKind.ofName? name with
    | none =>
      rw [harm] at becomes
      exact .inl (hown _ becomes)
    | some arm =>
      rw [harm] at becomes
      exact .inr ⟨arm, rfl, (Option.some.inj becomes).symm⟩
  | arm | loop => exact .inl (hown _ becomes)

/-- A line, an attachment or a note becomes an icon in a choice, in an arm and in a loop only. -/
theorem mem_of_isRootOnly (becomes : s.kind? name = some kind) (waits : isRootOnly name = true) :
    s ∈ [.choice, .arm, .loop] := by
  cases s with
  | root => exact nomatch (if_pos (.inr waits)).symm.trans becomes
  | lane | branch => exact nomatch (if_pos waits).symm.trans becomes
  | choice | arm | loop => simp

/-- A lane becomes no icon in the root. -/
theorem ne_root_of_lane (becomes : s.kind? "lane" = some kind) : s ≠ .root := by
  rintro rfl
  rw [kind?, if_pos (.inl rfl)] at becomes
  exact nomatch becomes

end Holder

/-- What comes of lines, attachments, notes and lanes, wherever they stand. -/
structure Structural (root : Block) (diagram : Diagram) (problems : List BuildProblem) : Prop where
  /-- Nodes of these kinds are of blocks in a choice, in an arm or in a loop. -/
  waiting : ∀ n ∈ diagram.nodes, isRootOnly n.kind.name = true →
    ∃ s ∈ [Holder.choice, .arm, .loop], ∃ o, Stands root s o ∧ o.block.name = n.kind.name ∧
      n.block = o.block
  /-- Nodes of this kind are of blocks that are not directly in the root. -/
  lane : ∀ n ∈ diagram.nodes, n.kind.name = "lane" →
    ∃ s ≠ Holder.root, ∃ o, Stands root s o ∧ o.block.name = "lane" ∧ n.block = o.block
  /-- Directly in the root they are drawn, unless they refer to no node. -/
  inRoot : ∀ o ∈ root.outline.children, isRootOnly o.block.name = true →
    diagram.Shows .root o ∨ ∃ p ∈ problems, p.span = o.block.span ∧
      p.fault.code ∈ [Code.unknownReference, .invalidReference]
  /-- The blocks of a lane are in one column, but for those that are reported. -/
  laneInRoot : ∀ o ∈ root.outline.children, o.block.name = "lane" → ∃ column, ∀ x ∈ o.children,
    (∃ n ∈ diagram.nodes, n.block = x.block ∧ n.column = column) ∨
      ∃ p ∈ problems, p.span = x.block.span
  /-- In a lane they are reported. -/
  inLane : ∀ o ∈ root.outline.children, o.block.name = "lane" → ∃ number, ∀ x ∈ o.children,
    isRootOnly x.block.name = true →
      ⟨.unsupportedInLane x.block.name (Draft.laneName o number), x.block.span⟩ ∈ problems
  /-- In the branch of a question they are reported. -/
  inBranch : ∀ n ∈ diagram.nodes, n.kind = .question → ∃ s o, Stands root s o ∧ n.block = o.block ∧
    ∀ side b, o.Uses side b → ∀ x ∈ b.icons, isRootOnly x.block.name = true →
      ⟨.unsupportedInBranch x.block.name side n.id, x.block.span⟩ ∈ problems
  /-- Everywhere else they become icons, unless a problem is noted. -/
  elsewhere : problems = [] → ∀ s o, Stands root s o →
    isRootOnly o.block.name = true ∧ s ∈ [Holder.choice, .arm, .loop] ∨
      o.block.name = "lane" ∧ s ≠ Holder.root →
    ∃ n ∈ diagram.nodes, n.kind.name = o.block.name ∧ n.block = o.block

namespace Draft

variable {root : Block}

/-- A node with a kind that no icon needs is of a block of that name, which stands in the root. -/
theorem exists_block_of_structural {n : Node} (hn : n ∈ (ofRoot root).diagram.nodes)
    (structural : isRootOnly n.kind.name = true ∨ n.kind.name = "lane") :
    ∃ s o, Stands root s o ∧ s.kind? n.kind.name = some n.kind ∧ o.block.name = n.kind.name ∧
      n.block = o.block := by
  have hother : ∀ name ∈ ["start", "parameters", "loop_end", "end", "choice_case", "choice_else"],
      n.kind.name ≠ name := by
    intro name hname h
    rw [h] at structural
    simp only [List.mem_cons, List.not_mem_nil, or_false] at hname
    rcases hname with rfl | rfl | rfl | rfl | rfl | rfl <;> exact absurd structural (by decide)
  rcases node_ofRoot root hn with ⟨name, hname, hkind, -⟩ | haccounted
  · refine absurd ((congrArg NodeKind.name hkind).trans (name_ofName name)) (hother name ?_)
    exact List.mem_append_left ["choice_case", "choice_else"] hname
  · cases haccounted with
    | loopEnd kind _ => exact absurd (congrArg NodeKind.name kind) (hother "loop_end" (by simp))
    | @icon s o own becomes block _ =>
      have hkind : n.origin.kind = n.kind := rfl
      rw [hkind] at becomes
      rcases Holder.name_of_kind? becomes with hname | ⟨arm, -, harm⟩
      · exact ⟨s, o, own, hname ▸ becomes, hname.symm, block⟩
      · refine absurd (congrArg NodeKind.name harm) (hother _ ?_)
        cases arm <;> simp [ArmKind.nodeKind, NodeKind.name]

/-- What comes of lines, attachments, notes and lanes in a finished diagram. -/
theorem structural_ofRoot (root : Block) :
    Structural root (ofRoot root).diagram (ofRoot root).problems where
  waiting n hn waits := by
    obtain ⟨s, o, hstands, hkind, hname, hblock⟩ := exists_block_of_structural hn (.inl waits)
    exact ⟨s, Holder.mem_of_isRootOnly hkind waits, o, hstands, hname, hblock⟩
  lane n hn hlane := by
    obtain ⟨s, o, hstands, hkind, hname, hblock⟩ := exists_block_of_structural hn (.inr hlane)
    exact ⟨s, Holder.ne_root_of_lane (hlane ▸ hkind), o, hstands, hname.trans hlane, hblock⟩
  inRoot o ho waits := shows_of_isRootOnly ho waits
  laneInRoot o ho hlane := by
    obtain ⟨column, hblocks⟩ := lane_ofRoot root hlane ho
    refine ⟨column, fun x hx => (hblocks x hx).imp_left ?_⟩
    rintro ⟨origin, horigin, hblock, hcolumn⟩
    obtain ⟨n, hn, rfl⟩ := List.mem_map.mp horigin
    exact ⟨n, hn, hblock, hcolumn⟩
  inLane o ho hlane := reported_in_lane root hlane ho
  inBranch n hn hquestion := by
    -- None of the icons that nobody writes is a question, and neither is the end of a loop.
    rcases node_ofRoot root hn with ⟨name, hname, hkind, -⟩ | haccounted
    · have hkind : n.kind = .ofName name := hkind
      rw [hquestion] at hkind
      simp only [List.mem_cons, List.not_mem_nil, or_false] at hname
      rcases hname with rfl | rfl | rfl | rfl <;> exact absurd hkind (by decide)
    · cases haccounted with
      | loopEnd kind _ => exact nomatch hquestion.symm.trans kind
      | @icon s o own _ block reported => exact ⟨s, o, own, block, reported hquestion⟩
  elsewhere hclean s o hstands misplaced := by
    -- Without a problem the block is shown: by its icon, or as a block of the root is.
    cases depicted_ofRoot hclean hstands with
    | @icon origin mem becomes block =>
      obtain ⟨n, hn, rfl⟩ := List.mem_map.mp mem
      refine ⟨n, hn, (Holder.name_of_kind? becomes).resolve_right ?_, block⟩
      rintro ⟨arm, harm, -⟩
      simp only [isRootOnly, List.contains_iff_mem, List.mem_cons, List.not_mem_nil,
        or_false] at misplaced
      rcases misplaced with ⟨hname | hname | hname, -⟩ | ⟨hname, -⟩ <;>
        simp [hname, ArmKind.ofName?] at harm
    | elsewhere inRoot _ =>
      subst inRoot
      rcases misplaced with ⟨-, hs⟩ | ⟨-, hs⟩
      · exact absurd hs (by decide)
      · exact absurd rfl hs

end Draft

open Draft

/-! ## Built diagrams -/

/-- Directly in the root, lines, attachments and notes are drawn unless they refer to no node, and
the blocks of a lane are put into one column. In a lane, and in the branch of a question that counts,
lines, attachments and notes are reported. So a node of such a kind is of a block in a choice, in an
arm or in a loop, and a node with the kind of a lane is of a lane that is not directly in the root;
there such blocks do become icons. -/
theorem build_structural (document : List Statement) (diagram : Diagram)
    (problems : List BuildProblem) (h : Diagram.build document = (some diagram, problems)) :
    ∃ root, rootBlock? document = some root ∧ Structural root diagram problems := by
  obtain ⟨root, hroot, -, rfl⟩ := exists_root_of_build (congrArg Prod.fst h)
  rw [Diagram.build, hroot] at h
  dsimp only at h
  obtain ⟨-, rfl⟩ := Prod.mk.inj h
  exact ⟨root, hroot, structural_ofRoot root⟩

/-- Notes in a lane and in a branch, and a line in a loop. -/
def misplacedSource : String :=
  "drakon \"d\" \x7b lane \"l\" \x7b action \"a\" \x7b\x7d note \x7b\x7d \x7d " ++
    "question \"q\" \x7b no = \x7b action \"b\" \x7b\x7d note \x7b\x7d \x7d \x7d " ++
    "for_each \"g\" \x7b line \"m\" \x7b\x7d \x7d \x7d"

/-- The notes are reported, and the line is an icon of the loop. -/
theorem build_structural_line :
    ∃ diagram problems,
      Diagram.build (Document.read misplacedSource).statements = (some diagram, problems) ∧
      diagram.nodes.map (fun n => (n.id, n.kind.name)) = [("d@start", "start"), ("a", "action"),
        ("q", "question"), ("b", "action"), ("g", "for_each"), ("m", "line"), ("g_end", "loop_end"),
        ("d@end", "end")] ∧
      problems.map BuildProblem.fault =
        [.unsupportedInLane "note" "l", .unsupportedInBranch "note" .no "q"] ∧
      ∃ root, rootBlock? (Document.read misplacedSource).statements = some root ∧
        Structural root diagram problems := by
  obtain ⟨hproblems, hread⟩ :
      (Diagram.build (Document.read misplacedSource).statements).2.map BuildProblem.fault =
        [.unsupportedInLane "note" "l", .unsupportedInBranch "note" .no "q"] ∧
      (Diagram.build (Document.read misplacedSource).statements).1.any (fun diagram =>
        diagram.nodes.map (fun n => (n.id, n.kind.name)) = [("d@start", "start"), ("a", "action"),
          ("q", "question"), ("b", "action"), ("g", "for_each"), ("m", "line"),
          ("g_end", "loop_end"), ("d@end", "end")]) = true := by decide +kernel
  obtain ⟨diagram, hdiagram, hread⟩ := (Option.any_eq_true _ _).mp hread
  have hbuild : Diagram.build (Document.read misplacedSource).statements =
      (some diagram, (Diagram.build (Document.read misplacedSource).statements).2) :=
    Prod.ext hdiagram rfl
  exact ⟨diagram, _, hbuild, of_decide_eq_true hread, hproblems, build_structural _ _ _ hbuild⟩

/-- A line in an arm. -/
def lineInArmSource : String :=
  "drakon \"d\" \x7b choice \"c\" \x7b case \"x\" \x7b line \"m\" \x7b\x7d \x7d \x7d \x7d"

/-- A line can be a node in the diagram of a source that is read without any diagnostic. -/
theorem exists_structural_node :
    ¬ ∀ source diagram, (Document.read source).diagnostics = [] →
      (Document.read source).diagram = some diagram →
      ∀ n ∈ diagram.nodes, n.kind.name ∉ ["line", "attach", "note", "lane"] := by
  intro hclaim
  obtain ⟨hdiagnostics, hread⟩ : (Document.read lineInArmSource).diagnostics = [] ∧
      (Document.read lineInArmSource).diagram.any (fun diagram =>
        diagram.nodes.any fun n => n.kind.name = "line") = true := by decide +kernel
  obtain ⟨diagram, hdiagram, hread⟩ := (Option.any_eq_true _ _).mp hread
  obtain ⟨n, hn, hread⟩ := List.any_eq_true.mp hread
  have hname : n.kind.name = "line" := of_decide_eq_true hread
  exact hclaim lineInArmSource diagram hdiagnostics hdiagram n hn (by simp [hname])

end Flowchart
