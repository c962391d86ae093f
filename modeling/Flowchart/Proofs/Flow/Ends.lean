import Flowchart.Proofs.Draft.Keeping
import Flowchart.Proofs.Flow.Exits
import Flowchart.Proofs.Flow.Lines

/-!
# Where branches and arms end

The flow returns from a branch at the last node that its blocks have put into its column, so behind
a loop with a body it is the icon that closes the loop. From an arm it returns at the icon of the
last block of the arm, whatever this block has put behind it. `branch_ends` says what the two are;
they come to the same unless the last block of the arm puts something into the arm's column itself,
as a loop with a body does.
-/

namespace Flowchart

namespace Draft

open Stroke

/-- An arm was placed between two drafts of a list, with the entries of its blocks. It ends with the
icon of the last block, which need not be the last node that its blocks put into the column. -/
structure ArmEnds (P : Outline → Prop) (drafts : List Draft) (d : Draft) (arm : Arm) (o : Outline)
    (column : Nat) (opened closed : Draft) (entries : List Entry) : Prop where
  /-- The blocks of the arm were placed on the way. -/
  run : ArmRun P drafts arm o column opened closed
  /-- They fill its column with these entries. -/
  fills : Fills column opened o.children closed entries
  /-- The arm ends with the icon of the last block. -/
  armEnd : arm.armEnd = entries.getLast?.map Entry.id
  /-- This is the last node of its column just when nothing is placed behind that icon. -/
  agrees : arm.armEnd = (entries.flatMap Entry.ids).getLast? ↔
    ∀ entry ∈ entries.getLast?, entry.inner = []
  /-- When the last block is a loop with a body, the last node closes it, and the arm does not end
  there. -/
  loop : EndsWithLoop entries → ∃ loopEnd, (entries.flatMap Entry.ids).getLast? = some loopEnd ∧
    d.HasKind loopEnd .loopEnd ∧ arm.armEnd ≠ some loopEnd

/-- A branch was placed between two drafts of a list. It ends with the last node that its blocks put
into the column. -/
structure BranchEnds (P : Outline → Prop) (drafts : List Draft) (d : Draft) (question : String)
    (fork : Fork) (o : Outline) (column : Nat) (opened closed : Draft) (entries : List Entry) :
    Prop where
  /-- The blocks of the branch were placed on the way. -/
  run : BranchRun P drafts question fork o column opened closed entries
  /-- When the last block is a loop with a body, the branch ends with the node that closes it. -/
  loop : EndsWithLoop entries → ∃ loopEnd, fork.branchEnd = some loopEnd ∧
    d.HasKind loopEnd .loopEnd

/-- Every question that is kept leads straight to its target or has a branch that ends as it should. -/
theorem ofRoot_branchEnds (root : Block) : ∀ p ∈ (ofRoot root).forks, p.2.branchEnd = none ∨
    ∃ o column opened closed entries, BranchEnds (· ∈ Outline.allOf root.outline.children)
      (initial root :: writtenTrail root) (ofRoot root) p.1 p.2 o column opened closed entries := by
  intro p hp
  refine (keptFork_ofRoot hp).branch.imp_right ?_
  rintro ⟨o, column, opened, closed, entries, hrun⟩
  refine ⟨o, column, opened, closed, entries, hrun, fun hloop => ?_⟩
  obtain ⟨_, _, -, hfills, -⟩ := hrun.leads
  obtain ⟨⟨loopEnd, hlast, hkind⟩, -⟩ := hfills.loopEnd hloop
  exact ⟨loopEnd, hrun.branchEnd.trans hlast, hkind.mono (infix_posts_ofRoot hrun.closed_mem)⟩

/-- Every arm that is kept ends with the icon of its last block. -/
theorem ofRoot_armEnds (root : Block) : ∀ arm ∈ (ofRoot root).arms,
    ∃ o column opened closed entries, ArmEnds (· ∈ Outline.allOf root.outline.children)
      (initial root :: writtenTrail root) (ofRoot root) arm o column opened closed entries := by
  intro arm ha
  obtain ⟨o, column, opened, closed, hrun⟩ := keptArm_ofRoot ha
  obtain ⟨entries, hfills, hend⟩ := placeInArm_fills o.children column none opened
  rw [hrun.placed, Option.or_none] at hend
  rw [hrun.placed] at hfills
  have hagrees := hfills.getLast?_eq_iff (registry_of_mem_writtenTrail hrun.closed_mem)
  rw [← hend] at hagrees
  refine ⟨o, column, opened, closed, entries, hrun, hfills, hend, hagrees, fun hloop => ?_⟩
  obtain ⟨⟨loopEnd, hlast, hkind⟩, entry, hentry, hinner⟩ := hfills.loopEnd hloop
  refine ⟨loopEnd, hlast, hkind.mono (infix_posts_ofRoot hrun.closed_mem), fun hsame => ?_⟩
  exact hinner (hagrees.mp (hsame.trans hlast.symm) entry hentry)

/-- The flow returns by no edge that lines do not replace. -/
theorem Outlives.not_rejoin {d : Draft} {e : Edge} (h : d.Outlives e) : e.flag "rejoin" = false := by
  cases h with
  | direct kept straight leads => rfl
  | head isHead =>
    obtain ⟨kept, ends, heads⟩ := isHead
    rfl
  | parameters starts shows => rfl

/-- An edge by which the flow returns leaves from the end of a branch or of an arm. -/
theorem Ledger.leaves_of_rejoin {placed d : Draft} {opening lines : List Edge}
    (h : Ledger placed d opening lines) (hh : placed.Headed)
    (ho : ∀ edge ∈ opening, placed.Outlives edge) {e : Edge} (he : e ∈ d.diagram.edges)
    (hw : e.isWritten = false) (hrejoin : e.flag "rejoin" = true) :
    (∃ p ∈ d.forks, p.2.branchEnd = some e.leaves) ∨ ∃ arm ∈ d.arms, arm.armEnd = some e.leaves := by
  have hnot : ¬ placed.Outlives e := fun hout => by
    rw [hout.not_rejoin] at hrejoin
    exact Bool.noConfusion hrejoin
  rw [h.edges, List.mem_append, List.mem_append, List.mem_append] at he
  rcases he with ((he | he) | he) | he
  · exact absurd (.head (hh e he)) hnot
  · exact absurd (ho e he) hnot
  · exact absurd ((h.lines e he).written.symm.trans hw) Bool.noConfusion
  · obtain ⟨s, hs, rfl⟩ := List.mem_map.mp he
    cases mem_strokes.mp (mem_of_mem_drawn hs) with
    | rejoin kept ends leads moves => exact .inl ⟨_, kept, ends⟩
    | armRejoin kept ends leads moves => exact .inr ⟨_, kept, ends⟩
    | _ => exact Bool.noConfusion hrejoin

end Draft

open Draft

/-! ## Built diagrams -/

/-- The branch of a question ends with the last node that its blocks have put into their column, and
an arm with the icon of its last block. If this block puts nothing else into the column, that is the
last node as well, and otherwise it is not. From these ends the flow returns, and from nowhere else. -/
theorem branch_ends (document : List Statement) (diagram : Diagram)
    (h : (Diagram.build document).1 = some diagram) :
    ∃ root d, rootBlock? document = some root ∧ (contexts document).getLast? = some d ∧
      d.diagram = diagram ∧
      (∀ p ∈ d.forks, p.2.branchEnd = none ∨ ∃ o column opened closed entries,
        BranchEnds (· ∈ Outline.allOf root.outline.children) (initial root :: writtenTrail root) d
          p.1 p.2 o column opened closed entries) ∧
      (∀ arm ∈ d.arms, ∃ o column opened closed entries,
        ArmEnds (· ∈ Outline.allOf root.outline.children) (initial root :: writtenTrail root) d
          arm o column opened closed entries) ∧
      ∀ e ∈ diagram.edges, e.isWritten = false → e.flag "rejoin" = true →
        (∃ p ∈ d.forks, p.2.branchEnd = some e.leaves) ∨
          ∃ arm ∈ d.arms, arm.armEnd = some e.leaves := by
  obtain ⟨root, hroot, hlast, rfl⟩ := exists_root_of_build h
  exact ⟨root, _, hroot, hlast, rfl, ofRoot_branchEnds root, ofRoot_armEnds root, fun e he =>
    (ofRoot_ledger root).leaves_of_rejoin (placed_headed root) (outlives_opening root) he⟩

/-- A choice with an empty arm, and an arm that ends with a loop. -/
def loopArmSource : String :=
  "drakon \"d\" \x7b choice \"c\" \x7b case \"x\" \x7b\x7d else \"y\" \x7b " ++
    "for_each \"g\" \x7b action \"b\" \x7b\x7d \x7d \x7d \x7d \x7d"

/-- The second arm ends with its loop, and the icon that closes the loop is the last of its column. -/
theorem branch_ends_loopArm :
    ∃ root d, rootBlock? (Document.read loopArmSource).statements = some root ∧
      (contexts (Document.read loopArmSource).statements).getLast? = some d ∧
      d.columnIds 1 = ["y", "g", "b", "g_end"] ∧
      ∃ arm ∈ d.arms, arm.armEnd = some "g" ∧ ∃ o column opened closed entries,
        ArmEnds (· ∈ Outline.allOf root.outline.children) (initial root :: writtenTrail root) d
          arm o column opened closed entries := by
  have hbuilt : (contexts (Document.read loopArmSource).statements).getLast?.all (fun d =>
      d.columnIds 1 = ["y", "g", "b", "g_end"] ∧ d.arms.any fun arm => arm.armEnd = some "g") =
      true := by decide +kernel
  have hdiagram : (Diagram.build (Document.read loopArmSource).statements).1.isSome = true := by
    decide +kernel
  obtain ⟨diagram, hdiagram⟩ := Option.isSome_iff_exists.mp hdiagram
  obtain ⟨root, d, hroot, hlast, -, -, harms, -⟩ := branch_ends _ diagram hdiagram
  rw [hlast] at hbuilt
  obtain ⟨hcolumn, hbuilt⟩ := of_decide_eq_true hbuilt
  obtain ⟨arm, ha, hend⟩ := List.any_eq_true.mp hbuilt
  exact ⟨root, d, hroot, hlast, hcolumn, arm, ha, of_decide_eq_true hend, harms arm ha⟩

/-- The icon that closes a loop can be the last one in the column of an arm, and yet neither end the
arm nor have a way out. -/
theorem exists_loopEnd_without_exit :
    ¬ ∀ source d, (Document.read source).hasErrors = false →
      (contexts (Document.read source).statements).getLast? = some d →
      ∀ arm ∈ d.arms, ∀ n ∈ d.diagram.nodes, n.kind = .loopEnd →
        (d.columnIds n.column).head? = some arm.id → (d.columnIds n.column).getLast? = some n.id →
        arm.armEnd = some n.id ∨ d.diagram.exits n.id ≠ [] := by
  intro hclaim
  obtain ⟨herrors, hread⟩ : (Document.read loopArmSource).hasErrors = false ∧
      (contexts (Document.read loopArmSource).statements).getLast?.any (fun d =>
        d.arms.any fun arm => d.diagram.nodes.any fun n => n.kind = .loopEnd ∧
          (d.columnIds n.column).head? = some arm.id ∧
          (d.columnIds n.column).getLast? = some n.id ∧ arm.armEnd ≠ some n.id ∧
          (d.diagram.exits n.id).isEmpty = true) = true := by decide +kernel
  obtain ⟨d, hlast, hread⟩ := (Option.any_eq_true _ _).mp hread
  obtain ⟨arm, ha, hread⟩ := List.any_eq_true.mp hread
  obtain ⟨n, hn, hread⟩ := List.any_eq_true.mp hread
  obtain ⟨hkind, hhead, hcolumn, hend, hexits⟩ := of_decide_eq_true hread
  rcases hclaim loopArmSource d herrors hlast arm ha n hn hkind hhead hcolumn with hsame | hexit
  · exact hend hsame
  · exact hexit (List.isEmpty_iff.mp hexits)

end Flowchart
