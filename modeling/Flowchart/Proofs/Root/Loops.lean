import Flowchart.Proofs.Draft.Brackets
import Flowchart.Proofs.Root.Terminals

/-!
# Loops of a diagram

In a built diagram every loop with a body is closed by an icon in its own column that stands behind
everything the body has put into the diagram, and the loops of a column are closed in the order in
which brackets are (`build_loops_closed`). The icons that nobody wrote open no loop, so what holds
of the written icons holds of all.

The id of a closing icon is the first of `loop_end`, `loop_end_1`, `loop_end_2`, … that is free, and
at most as many are tried as are in use (`exists_loopEndCandidate`).
-/

namespace Flowchart

namespace Draft

/-! ## The search for an id -/

/-- The ids that are tried for the icon that closes a loop, one after the other. -/
def loopEndCandidate (loop : String) : Nat → String
  | 0 => loop ++ "_end"
  | k + 1 => loop ++ "_end" ++ "_" ++ toString (k + 1)

/-- No id is tried twice. -/
theorem loopEndCandidate_injective (loop : String) : (loopEndCandidate loop).Injective := by
  have hnumbered : ∀ k, loop ++ "_end" ≠ loop ++ "_end" ++ "_" ++ toString (k + 1) := fun k he => by
    have hlength := congrArg String.length he
    simp only [String.length_append] at hlength
    have hunderscore : "_".length = 1 := rfl
    omega
  intro j k h
  cases j with
  | zero =>
    cases k with
    | zero => rfl
    | succ k => exact absurd h (hnumbered k)
  | succ j =>
    cases k with
    | zero => exact absurd h.symm (hnumbered j)
    | succ k => exact (numbered_inj.mp h).2

/-- The search stops at the first id that is free, or where it has to. -/
theorem exists_freeId_eq (d : Draft) (stem : String) (n tries : Nat) :
    ∃ k, d.freeId stem n tries = stem ++ "_" ++ toString (n + k) ∧
      ∀ j < k, d.hasNode (stem ++ "_" ++ toString (n + j)) = true := by
  induction tries generalizing n with
  | zero => exact ⟨0, rfl, fun _ hj => absurd hj (Nat.not_lt_zero _)⟩
  | succ tries ih =>
    rw [freeId]
    split
    · rename_i hused
      obtain ⟨k, hid, hbefore⟩ := ih (n + 1)
      refine ⟨k + 1, Nat.add_right_comm n 1 k ▸ hid, fun j hj => ?_⟩
      cases j with
      | zero => exact hused
      | succ j => exact Nat.add_right_comm n 1 j ▸ hbefore j (Nat.lt_of_succ_lt_succ hj)
    · exact ⟨0, rfl, fun _ hj => absurd hj (Nat.not_lt_zero _)⟩

/-- The id of a closing icon is the first free one, and as many others have been tried at most as
are in use. -/
theorem exists_loopEndCandidate (d : Draft) (loop : String) :
    ∃ k ≤ d.ids.length, d.loopEndId loop = loopEndCandidate loop k ∧
      d.hasNode (loopEndCandidate loop k) = false ∧
      ∀ j < k, d.hasNode (loopEndCandidate loop j) = true := by
  have hfirst : ∃ k, d.loopEndId loop = loopEndCandidate loop k ∧
      ∀ j < k, d.hasNode (loopEndCandidate loop j) = true := by
    unfold loopEndId
    dsimp only
    split
    · rename_i hused
      obtain ⟨k, hid, hbefore⟩ := exists_freeId_eq d (loop ++ "_end") 1 d.ids.length
      refine ⟨k + 1, ?_, fun j hj => ?_⟩
      · rw [hid, Nat.add_comm 1 k]
        rfl
      · cases j with
        | zero => exact hused
        | succ j =>
          rw [loopEndCandidate, ← Nat.add_comm 1 j]
          exact hbefore j (Nat.lt_of_succ_lt_succ hj)
    · exact ⟨0, rfl, fun _ hj => absurd hj (Nat.not_lt_zero _)⟩
  obtain ⟨k, hid, hbefore⟩ := hfirst
  refine ⟨k, ?_, hid, hid ▸ hasNode_loopEndId d loop, hbefore⟩
  -- The ids before it are different ones, and all of them are in use.
  have hused : (List.range k).map (loopEndCandidate loop) ⊆ d.ids.keys := by
    intro id hm
    obtain ⟨j, hj, rfl⟩ := List.mem_map.mp hm
    exact hasNode_iff.mp (hbefore j (List.mem_range.mp hj))
  have hnodup : ((List.range k).map (loopEndCandidate loop)).Nodup :=
    List.nodup_range.map (loopEndCandidate_injective loop)
  have hlength := (hnodup.subperm hused).length_le
  rw [List.length_map, List.length_range, Table.keys, List.length_map] at hlength
  exact hlength

/-- The icon that closes a loop is always taken in. -/
theorem register_loopEndNode (d : Draft) (loop : String) (column : Nat) :
    (d.register (d.loopEndNode loop column) .back).2 = true := by
  have hfree : d.hasNode (d.loopEndNode loop column).id = false := hasNode_loopEndId d loop
  rw [register_of_free hfree]

/-! ## The diagram of a root -/

section

variable (root : Block)

/-- All icons of a root are bracketed. -/
theorem ofRoot_bracketed : Bracketed (ClosedIn root) (ofRoot root).diagram.loopSigns := by
  have hplain : ∀ ns : List Node, (∀ n ∈ ns, n.kind ≠ .forEach) →
      Bracketed (ClosedIn root) (ns.map Node.loopSign) := fun ns hns =>
    Bracketed.of_plain fun s hs hopens => by
      obtain ⟨n, hn, rfl⟩ := List.mem_map.mp hs
      exact hns n hn hopens.1
  obtain ⟨back, hkinds, hunended⟩ := exists_nodes_unended root
  have hstart : Bracketed (ClosedIn root) ((if (written root).hasNode (written root).startNode.id
      then (written root).diagram.nodes
      else (written root).startNode :: (written root).diagram.nodes).map Node.loopSign) := by
    split
    · exact written_bracketed root
    · exact .icon (fun hopens => NodeKind.noConfusion hopens.1) (written_bracketed root)
  have hall := hstart.append (hplain back fun n hn => hkinds n hn ▸ NodeKind.noConfusion)
  rw [← List.map_append, ← hunended] at hall
  rw [Diagram.loopSigns, nodes_ofRoot]
  split
  · exact hall
  · rw [List.map_append]
    exact hall.append (hplain _ fun n hn => List.mem_singleton.mp hn ▸ NodeKind.noConfusion)

variable {root}

/-- What the body of a loop has put into the diagram stands before the icon that closes it. -/
theorem LoopRun.precedes {P : Outline → Prop} {s t : LoopSign} {o : Outline}
    {opened closed : Draft}
    (h : LoopRun P (· ∈ initial root :: writtenTrail root) s t o opened closed) {x : Node}
    (hx : x ∈ closed.diagram.nodes) : (ofRoot root).diagram.Precedes x.id t.id := by
  have hinfix := infix_posts_ofRoot h.behind_known
  rw [Diagram.posts_eq_origins, Diagram.posts_eq_origins, h.last, List.map_append] at hinfix
  have hbefore : [x.post].Sublist (closed.diagram.origins.map Origin.toPost) :=
    List.singleton_sublist.mpr (List.mem_map_of_mem (List.mem_map_of_mem hx))
  refine Diagram.precedes_of_posts (u := x.post) (v := t.toPost) ?_
  rw [Diagram.posts_eq_origins]
  exact (hbefore.append (.refl _)).trans hinfix.sublist

/-- Two loops that are closed by one icon are one loop. -/
theorem eq_of_loopEnd {n k : Node} (hn : n ∈ (ofRoot root).diagram.nodes)
    (hk : k ∈ (ofRoot root).diagram.nodes) (opens : n.origin.OpensLoop)
    (opens' : k.origin.OpensLoop)
    (same : n.attributes.get? "loop_end" = k.attributes.get? "loop_end") : n = k := by
  have hnodup := (registry_ofRoot root).nodup
  have hclosing := (ofRoot_bracketed root).exists_closing fun _ _ h => h.1.not_opensLoop
  obtain ⟨s, hs, hns⟩ := hclosing _ (List.mem_map_of_mem hn) opens
  obtain ⟨t, ht, hkt⟩ := hclosing _ (List.mem_map_of_mem hk) opens'
  obtain ⟨m, hm, rfl⟩ := List.mem_map.mp hs
  obtain ⟨l, hl, rfl⟩ := List.mem_map.mp ht
  -- The loops name the same icon, and this one names one loop.
  have hid : m.id = l.id :=
    Value.text.inj (Option.some.inj (hns.1.loopEnd.symm.trans (same.trans hkt.1.loopEnd)))
  obtain rfl : m = l := List.inj_on_of_nodup_map hnodup hm hl hid
  exact List.inj_on_of_nodup_map hnodup hn hk
    (Value.text.inj (Option.some.inj (hns.1.loop.symm.trans hkt.1.loop)))

end

end Draft

open Draft

/-! ## Built diagrams -/

/-- In a built diagram every loop with a body and the icon that closes it name each other and stand
in one column, the closing icon behind all that the body has put there, and it closes no other loop.
In every column loops are closed in the order in which brackets are. The id of a closing icon is the
first free one of those that are tried, so the icon is always taken in. -/
theorem build_loops_closed (document : List Statement) (diagram : Diagram)
    (h : (Diagram.build document).1 = some diagram) :
    ∃ root, rootBlock? document = some root ∧
      (∀ n ∈ diagram.nodes, n.origin.OpensLoop →
        ∃ m ∈ diagram.nodes, n.loopSign.ClosedBy m.loopSign ∧
          ∃ o opened closed, LoopRun (· ∈ Outline.allOf root.outline.children)
              (· ∈ initial root :: writtenTrail root) n.loopSign m.loopSign o opened closed ∧
            ∀ x ∈ closed.diagram.nodes, diagram.Precedes x.id m.id) ∧
      (∀ n ∈ diagram.nodes, ∀ k ∈ diagram.nodes, n.origin.OpensLoop → k.origin.OpensLoop →
        n.attributes.get? "loop_end" = k.attributes.get? "loop_end" → n = k) ∧
      (∀ c, Bracketed LoopSign.ClosedBy
        ((diagram.nodes.filter (·.column = c)).map Node.loopSign)) ∧
      ∀ (d : Draft) (loop : String) (column : Nat),
        (∃ k ≤ d.ids.length, d.loopEndId loop = loopEndCandidate loop k ∧
          d.hasNode (loopEndCandidate loop k) = false ∧
          ∀ j < k, d.hasNode (loopEndCandidate loop j) = true) ∧
        (d.register (d.loopEndNode loop column) .back).2 = true := by
  unfold Diagram.build at h
  cases hroot : rootBlock? document with
  | none =>
    rw [hroot] at h
    exact nomatch h
  | some root =>
    rw [hroot] at h
    obtain rfl := Option.some.inj h
    have hbrackets := ofRoot_bracketed root
    refine ⟨root, rfl, fun n hn hopens => ?_, fun n hn k hk hopens hopens' =>
      eq_of_loopEnd hn hk hopens hopens', fun c => ?_, fun d loop column =>
      ⟨exists_loopEndCandidate d loop, register_loopEndNode d loop column⟩⟩
    · -- The signs of all nodes are bracketed, so the one that opens a loop has a partner.
      obtain ⟨t, ht, hclosed, o, opened, closed, hrun⟩ :=
        hbrackets.exists_closing (fun _ _ h => h.1.not_opensLoop) _ (List.mem_map_of_mem hn) hopens
      obtain ⟨m, hm, rfl⟩ := List.mem_map.mp ht
      exact ⟨m, hm, hclosed, o, opened, closed, hrun, fun x => hrun.precedes⟩
    · -- A loop and the icon that closes it stand in one column, so columns are bracketed, too.
      have hfilter := (hbrackets.filter (p := fun s => decide (s.column = c))
        fun _ _ h => by rw [h.1.column]).mono fun _ _ h => h.1
      rw [Diagram.loopSigns, List.filter_map] at hfilter
      exact hfilter

/-- A loop whose first id for the closing icon is taken, and a second loop in a branch inside it
that asks for its column. -/
def nestedLoopSource : String :=
  "drakon \"d\" \x7b action \"g_end\" \x7b\x7d for_each \"g\" \x7b question \"q\" \x7b yes = \x7b
    column = 0 for_each \"h\" \x7b action \"a\" \x7b\x7d \x7d \x7d \x7d \x7d \x7d"

/-- Both loops are closed in the column that they share, the inner one first. -/
theorem build_loops_closed_nested :
    ∃ diagram, (Diagram.build (Document.read nestedLoopSource).statements).1 = some diagram ∧
      diagram.nodes.map (fun n => (n.id, n.kind)) =
        [("d@start", .start), ("g_end", .action), ("g", .forEach), ("q", .question),
          ("h", .forEach), ("a", .action), ("h_end", .loopEnd), ("g_end_1", .loopEnd),
          ("d@end", .finish)] ∧
      (diagram.nodes.filter (·.origin.OpensLoop)).map (fun n => (n.id, n.column)) =
        [("g", 0), ("h", 0)] ∧
      (∀ n ∈ diagram.nodes, n.origin.OpensLoop →
        ∃ m ∈ diagram.nodes, n.loopSign.ClosedBy m.loopSign) ∧
      Bracketed LoopSign.ClosedBy
        ((diagram.nodes.filter (·.column = 0)).map Node.loopSign) := by
  have hbuilt : (Diagram.build (Document.read nestedLoopSource).statements).1.any (fun diagram =>
      diagram.nodes.map (fun n => (n.id, n.kind)) =
        [("d@start", .start), ("g_end", .action), ("g", .forEach), ("q", .question),
          ("h", .forEach), ("a", .action), ("h_end", .loopEnd), ("g_end_1", .loopEnd),
          ("d@end", .finish)] ∧
      (diagram.nodes.filter (·.origin.OpensLoop)).map (fun n => (n.id, n.column)) =
        [("g", 0), ("h", 0)]) = true := by decide +kernel
  obtain ⟨diagram, hdiagram, hbuilt⟩ := (Option.any_eq_true _ _).mp hbuilt
  obtain ⟨hnodes, hopens⟩ := of_decide_eq_true hbuilt
  obtain ⟨root, -, hclosed, -, hbrackets, -⟩ := build_loops_closed _ diagram hdiagram
  refine ⟨diagram, hdiagram, hnodes, hopens, fun n hn ho => ?_, hbrackets 0⟩
  obtain ⟨m, hm, hnm, -⟩ := hclosed n hn ho
  exact ⟨m, hm, hnm⟩

end Flowchart
