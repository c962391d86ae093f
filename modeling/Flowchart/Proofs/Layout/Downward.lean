import Flowchart.Proofs.Flow.Heads
import Flowchart.Proofs.Layout.Depth

/-!
# Depths where the flow leads downwards

If every edge of a diagram leads to a node behind the one that it leaves, no cycle is there, so all
nodes are settled and every edge leads deeper by its weight (`Downward.add_weight_le`). A node that
is entered from one node only, beside it, has the depth of that node (`Downward.depth_eq`).

`build_downward` says so of built diagrams whose authors leave the flow alone, and that the first
node of a branch in a new column stands beside its question.
-/

namespace Flowchart

open Layering

/-- Of two members of a list without repetition, the first one has the smaller place. -/
theorem idxOf_lt_of_sublist {l : List String} (hl : l.Nodup) {u v : String}
    (h : [u, v].Sublist l) : l.idxOf u < l.idxOf v := by
  induction l with
  | nil => exact nomatch h
  | cons a l ih =>
    -- The second one is not the first member of the list, whatever the first one is.
    obtain ⟨ha, hl⟩ := List.nodup_cons.mp hl
    have hv : v ∈ l := List.singleton_sublist.mp h.tail
    have hva : a ≠ v := fun he => ha (he ▸ hv)
    rw [List.idxOf_cons_ne l hva]
    cases h with
    | cons _ h =>
      have hua : a ≠ u := fun he => ha (he ▸ h.subset List.mem_cons_self)
      rw [List.idxOf_cons_ne l hua]
      exact Nat.succ_lt_succ (ih hl h)
    | cons_cons _ h =>
      rw [List.idxOf_cons_self]
      exact Nat.succ_pos _

namespace Diagram

/-- An edge leads from one node to another. -/
def Links (d : Diagram) (u v : String) : Prop := ∃ e ∈ d.edges, e.ends = (u, v)

/-- No two nodes have one id, and every edge leads to a node behind the one that it leaves. -/
structure Downward (d : Diagram) : Prop where
  /-- No two nodes have one id. -/
  nodup : (d.nodes.map Node.id).Nodup
  /-- Every edge leads to a node behind the one that it leaves. -/
  precedes : ∀ e ∈ d.edges, d.Precedes e.leaves e.enters

variable {d : Diagram} (h : d.Downward)

include h

/-- Where all edges lead downwards there is no cycle. -/
theorem Downward.not_transGen (v : String) : ¬ Relation.TransGen d.Links v v := by
  have hlink : ∀ {u v}, d.Links u v →
      (d.nodes.map Node.id).idxOf u < (d.nodes.map Node.id).idxOf v := by
    rintro u v ⟨e, he, hends⟩
    obtain ⟨rfl, rfl⟩ := Prod.mk.inj hends
    exact idxOf_lt_of_sublist h.nodup (h.precedes e he)
  have hlt : ∀ {u v}, Relation.TransGen d.Links u v →
      (d.nodes.map Node.id).idxOf u < (d.nodes.map Node.id).idxOf v := by
    intro u v huv
    induction huv with
    | single first => exact hlink first
    | tail _ last ih => exact ih.trans (hlink last)
  exact fun hv => (hlt hv).false

/-- Where all edges lead downwards every node is settled. -/
theorem Downward.settled (v : String) : Settled d.Leads v := by
  intro u _ hcycle
  have hlinks : Linked d.Leads ≤ d.Links := by
    rintro x y ⟨w, e, he, hleaves, henters, -⟩
    exact ⟨e, he, Prod.ext hleaves henters⟩
  exact h.not_transGen u (Relation.TransGen.mono hlinks u u hcycle)

/-- Where all edges lead downwards, all of them count for the depths. -/
theorem Downward.leads {e : Edge} (he : e ∈ d.edges) :
    d.Leads e.leaves e.enters (if e.flag "branch_lane" then 0 else 1) := by
  have hpair := h.precedes e he
  have hne : e.leaves ≠ e.enters := by simpa using hpair.nodup h.nodup
  exact ⟨e, he, rfl, rfl, hne, hpair.subset List.mem_cons_self,
    hpair.subset (List.mem_cons_of_mem _ (List.mem_singleton_self _)), rfl⟩

/-- Every edge leads deeper by its weight. -/
theorem Downward.add_weight_le {e : Edge} (he : e ∈ d.edges) :
    ∃ m n, d.depths.get? e.leaves = some m ∧ d.depths.get? e.enters = some n ∧
      m + (if e.flag "branch_lane" then 0 else 1) ≤ n := by
  have hleads := h.leads he
  obtain ⟨-, -, -, -, -, hu, hv, -⟩ := h.leads he
  obtain ⟨m, hm⟩ := exists_depth h.nodup hu
  obtain ⟨n, hn⟩ := exists_depth h.nodup hv
  have hle := (d.depths_eq h.nodup).2.add_le (h.settled e.enters) (.snoc (.nil _) hleads)
  rw [hm, hn, Option.getD_some, Option.getD_some, Nat.zero_add] at hle
  exact ⟨m, n, hm, hn, hle⟩

/-- A node that edges enter from one other node only, and beside it, is as deep as the other one. -/
theorem Downward.depth_eq {u v : String} {e : Edge} (he : e ∈ d.edges) (henters : e.enters = v)
    (only : ∀ x ∈ d.edges, x.enters = v → x.leaves = u ∧ x.flag "branch_lane" = true) :
    ∃ m, d.depths.get? v = some m ∧ d.depths.get? u = some m := by
  subst henters
  obtain ⟨rfl, hflag⟩ := only e he rfl
  obtain ⟨m, n, hm, hn, hle⟩ := h.add_weight_le he
  have hge := (d.depths_eq h.nodup).2.le_of_entered (u := e.leaves) (h.settled e.enters) ?_
  · rw [hm, hn, Option.getD_some, Option.getD_some] at hge
    rw [hflag, if_pos rfl, Nat.add_zero] at hle
    exact ⟨m, hn.trans (congrArg some (hge.antisymm hle)), hm⟩
  · rintro x w ⟨other, hother, rfl, henters, -, -, -, rfl⟩
    obtain ⟨hleaves, hflag⟩ := only other hother henters
    rw [hflag, if_pos rfl]
    exact ⟨hleaves, rfl⟩

end Diagram

namespace Draft

/-- Where the author leaves the flow alone it leads downwards. -/
theorem ofRoot_downward {root : Block} (h : root.Unguided) : (ofRoot root).diagram.Downward :=
  ⟨(registry_ofRoot root).nodup, ofRoot_precedes h⟩

/-- The first node of a branch in a new column stands beside its question. -/
theorem depth_eq_of_askedColumn {root : Block} (h : root.Unguided) {n : Node}
    (hn : n ∈ (ofRoot root).diagram.nodes) {fork : Fork}
    (kept : (n.id, fork) ∈ (ofRoot root).forks) {last first : String}
    (hl : fork.branchEnd = some last)
    (heads : (ofRoot root).diagram.HeadsBranch n.id last first) {branch : Branch}
    (leads : n.block.outline.branch fork.side = some branch)
    (new : branch.attributes.askedColumn = none) :
    ∃ m, (ofRoot root).diagram.depths.get? first = some m ∧
      (ofRoot root).diagram.depths.get? n.id = some m := by
  obtain ⟨o, column, opened, closed, entries, hrun⟩ := (keptFork_ofRoot kept).branch.resolve_left
    fun hnone => nomatch hnone.symm.trans hl
  -- The outline of the question is that of its block, so this is the branch that was placed.
  obtain ⟨attributes, icons, hleads, -, asked, hasked, hopened, hcolumn⟩ := hrun.leads
  have houtline : n.block.outline = o := by
    rw [hrun.block_eq hn rfl]
    exact outline_block_of_mem_allOf root.body o hrun.own
  rw [houtline, hleads] at leads
  rw [← Option.some.inj leads, Branch.attributes] at new
  rw [new, Option.getD_none] at hcolumn
  -- Its column is greater than all columns in use.
  have hregistry := registry_of_mem_writtenTrail hasked
  have hnew : column ∉ asked.columns.keys := fun hm =>
    absurd (hregistry.lt_nextColumn column hm) (hcolumn ▸ lt_irrefl _)
  obtain ⟨hempty, hprimary⟩ := columnIds_of_notMem hasked hnew
  rw [← columnIds_useColumn asked column, ← hopened] at hempty
  obtain ⟨other, hother, hedge⟩ := (ofRoot_ledger root).mem_heads (placed_planned root)
    (placed_headed root) kept hl
  obtain ⟨entry, -, -, hhead⟩ := hrun.exists_head hl
  obtain rfl : other = first := (hhead other hother).trans (hhead first heads).symm
  exact (ofRoot_downward h).depth_eq hedge rfl fun e he henters =>
    hrun.leaves_of_enters h hl heads hempty hprimary he henters

end Draft

open Draft

/-! ## Built diagrams -/

/-- If the author of a document leaves the flow alone, the edges of its diagram form no cycle. Every
edge leads deeper by one at least, or not higher if it leads into a branch. The first node of a
branch that asks for no column, and so gets a new one, is exactly as deep as its question. -/
theorem build_downward (document : List Statement) (root : Block)
    (hroot : rootBlock? document = some root) (hunguided : root.Unguided) :
    ∃ d, (contexts document).getLast? = some d ∧
      (Diagram.build document).1 = some d.diagram ∧
      (∀ v, ¬ Relation.TransGen d.diagram.Links v v) ∧
      (∀ e ∈ d.diagram.edges, ∃ m n, d.diagram.depths.get? e.leaves = some m ∧
        d.diagram.depths.get? e.enters = some n ∧
        m + (if e.flag "branch_lane" then 0 else 1) ≤ n) ∧
      ∀ n ∈ d.diagram.nodes, ∀ fork, (n.id, fork) ∈ d.forks → ∀ last ∈ fork.branchEnd,
        (∃ first, d.diagram.HeadsBranch n.id last first) ∧
        ∀ branch ∈ n.block.outline.branch fork.side, branch.attributes.askedColumn = none →
          ∀ first, d.diagram.HeadsBranch n.id last first →
            ∃ m, d.diagram.depths.get? first = some m ∧ d.diagram.depths.get? n.id = some m := by
  have hbuild : (Diagram.build document).1 = some (ofRoot root).diagram := by
    rw [Diagram.build, hroot]
  obtain ⟨other, hother, hlast, -⟩ := exists_root_of_build hbuild
  obtain rfl : root = other := Option.some.inj (hroot.symm.trans hother)
  have hdown := ofRoot_downward hunguided
  refine ⟨_, hlast, hbuild, hdown.not_transGen, fun e => hdown.add_weight_le,
    fun n hn fork kept last hl => ⟨?_, fun branch leads new first heads => ?_⟩⟩
  · obtain ⟨first, heads, -⟩ := (ofRoot_ledger root).mem_heads (placed_planned root)
      (placed_headed root) kept hl
    exact ⟨first, heads⟩
  · exact depth_eq_of_askedColumn hunguided hn kept hl heads leads new

/-- A question with a branch that ends with a loop, and a choice with two arms. -/
def unguidedSource : String :=
  "drakon \"d\" \x7b question \"q\" \x7b yes = \x7b action \"a\" \x7b\x7d " ++
    "for_each \"l\" \x7b action \"b\" \x7b\x7d \x7d \x7d \x7d " ++
    "choice \"c\" \x7b case \"x\" \x7b action \"e\" \x7b\x7d \x7d else \"y\" \x7b\x7d \x7d \x7d"

/-- There is no cycle, and the first node of the branch is as deep as the question. -/
theorem build_downward_unguided :
    ∃ root d, rootBlock? (Document.read unguidedSource).statements = some root ∧ root.Unguided ∧
      (contexts (Document.read unguidedSource).statements).getLast? = some d ∧
      (∀ v, ¬ Relation.TransGen d.diagram.Links v v) ∧
      ∃ first m, d.diagram.HeadsBranch "q" "l_end" first ∧
        d.diagram.depths.get? first = some m ∧ d.diagram.depths.get? "q" = some m := by
  have hread : (rootBlock? (Document.read unguidedSource).statements).any (fun root =>
      decide root.Unguided) = true := by decide +kernel
  have hbranch : (contexts (Document.read unguidedSource).statements).getLast?.all (fun d =>
      d.diagram.nodes.any fun n => n.id = "q" ∧ d.forks.any fun p => p.1 = n.id ∧
        p.2.branchEnd = some "l_end" ∧ (n.block.outline.branch p.2.side).any fun branch =>
          branch.attributes.askedColumn = none) = true := by decide +kernel
  obtain ⟨root, hroot, hunguided⟩ := (Option.any_eq_true _ _).mp hread
  have hunguided := of_decide_eq_true hunguided
  obtain ⟨d, hlast, -, hacyclic, -, hheads⟩ := build_downward _ root hroot hunguided
  rw [hlast] at hbranch
  obtain ⟨n, hn, hbranch⟩ := List.any_eq_true.mp hbranch
  obtain ⟨hid, hbranch⟩ := of_decide_eq_true hbranch
  obtain ⟨⟨question, fork⟩, kept, hbranch⟩ := List.any_eq_true.mp hbranch
  obtain ⟨hquestion, hend, hbranch⟩ := of_decide_eq_true hbranch
  obtain ⟨branch, leads, hnew⟩ := (Option.any_eq_true _ _).mp hbranch
  obtain ⟨⟨first, heads⟩, hdepth⟩ := hheads n hn fork (hquestion ▸ kept) "l_end" hend
  obtain ⟨m, hm, hq⟩ := hdepth branch leads (of_decide_eq_true hnew) first heads
  rw [hid] at heads hq
  exact ⟨root, d, hroot, hunguided, hlast, hacyclic, first, m, heads, hm, hq⟩

end Flowchart
