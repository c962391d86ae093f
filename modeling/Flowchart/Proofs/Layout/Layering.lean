import Mathlib.Data.Fintype.Card
import Mathlib.Logic.Relation
import Mathlib.Data.Set.Finite.List
import Mathlib.Order.Bounds.Basic

/-!
# Longest-path layerings

What depths are in a graph of weighted arcs that may have cycles. A node is settled when neither it
nor an ancestor of it lies on a cycle. The depth of a settled node is the greatest weight of a path
that ends in it. Any other node has the greatest depth that an arc from a settled node gives it, or
zero if there is no such arc.

There is at most one such layering (`IsLayering.unique`). In a graph with finitely many nodes the
settled ones are those from which no endless walk leads back along the arcs (`settled_iff_acc`).
-/

namespace Flowchart.Layering

variable {ν : Type} (leads : ν → ν → Nat → Prop)

/-- Some arc leads from one node to the other. -/
def Linked (u v : ν) : Prop := ∃ w, leads u v w

/-- A path of a given total weight leads from one node to the other. -/
inductive Path : ν → ν → Nat → Prop
  /-- A path that stays where it is. -/
  | nil (v : ν) : Path v v 0
  /-- A path with one more arc behind it. -/
  | snoc {u v x : ν} {n w : Nat} (path : Path u v n) (arc : leads v x w) : Path u x (n + w)

/-- A node lies on a cycle. -/
def OnCycle (v : ν) : Prop := Relation.TransGen (Linked leads) v v

/-- Neither a node nor an ancestor of it lies on a cycle. -/
def Settled (v : ν) : Prop := ∀ u, Relation.ReflTransGen (Linked leads) u v → ¬ OnCycle leads u

/-- The depths that arcs from settled nodes give a node. -/
def arrivals (depth : ν → Nat) (v : ν) : Set Nat :=
  {n | ∃ u w, Settled leads u ∧ leads u v w ∧ n = depth u + w}

/-- Depths by longest paths. -/
structure IsLayering (depth : ν → Nat) : Prop where
  /-- A settled node has the weight of a heaviest path that ends in it. -/
  settled : ∀ v, Settled leads v → IsGreatest {n | ∃ u, Path leads u v n} (depth v)
  /-- Another node has the greatest depth that it is given. -/
  arrived : ∀ v, ¬ Settled leads v → (arrivals leads depth v).Nonempty →
    IsGreatest (arrivals leads depth v) (depth v)
  /-- A node that is given none has depth zero. -/
  untouched : ∀ v, ¬ Settled leads v → arrivals leads depth v = ∅ → depth v = 0

variable {leads}

/-- There is only one layering. -/
theorem IsLayering.unique {depth depth' : ν → Nat} (h : IsLayering leads depth)
    (h' : IsLayering leads depth') : depth = depth' := by
  -- Settled nodes have their depths from paths alone, and the others theirs from settled nodes.
  have hsettled : ∀ v, Settled leads v → depth v = depth' v := fun v hv =>
    (h.settled v hv).unique (h'.settled v hv)
  have harrivals : ∀ v, arrivals leads depth v = arrivals leads depth' v := by
    intro v
    ext n
    constructor
    · rintro ⟨u, w, hu, hw, rfl⟩
      exact ⟨u, w, hu, hw, by rw [hsettled u hu]⟩
    · rintro ⟨u, w, hu, hw, rfl⟩
      exact ⟨u, w, hu, hw, by rw [hsettled u hu]⟩
  funext v
  by_cases hv : Settled leads v
  · exact hsettled v hv
  · rcases Set.eq_empty_or_nonempty (arrivals leads depth v) with hnone | hsome
    · rw [h.untouched v hv hnone, h'.untouched v hv (harrivals v ▸ hnone)]
    · have hmax := h'.arrived v hv (harrivals v ▸ hsome)
      rw [← harrivals v] at hmax
      exact (h.arrived v hv hsome).unique hmax

/-- The ancestors of a settled node are settled. -/
theorem Settled.of_linked {u v : ν} (h : Settled leads v) (huv : Linked leads u v) :
    Settled leads u :=
  fun x hx => h x (hx.tail huv)

/-- Paths one after the other are a path. -/
theorem Path.append {u v x : ν} {n m : Nat} (p : Path leads u v n) (q : Path leads v x m) :
    Path leads u x (n + m) := by
  induction q with
  | nil => exact p
  | snoc _ arc ih => exact (Nat.add_assoc n _ _ ▸ ih.snoc arc)

/-- The start of a path is an ancestor of its end. -/
theorem Path.reflTransGen {u v : ν} {n : Nat} (p : Path leads u v n) :
    Relation.ReflTransGen (Linked leads) u v := by
  induction p with
  | nil => exact .refl
  | snoc _ arc ih => exact ih.tail ⟨_, arc⟩

/-- A path to a settled node takes it as deep below the start of the path as the path is heavy. -/
theorem IsLayering.add_le {depth : ν → Nat} (h : IsLayering leads depth) {u v : ν} {n : Nat}
    (hv : Settled leads v) (p : Path leads u v n) : depth u + n ≤ depth v := by
  have hu : Settled leads u := fun x hx => hv x (hx.trans p.reflTransGen)
  obtain ⟨x, hx⟩ := (h.settled u hu).1
  exact (h.settled v hv).2 ⟨x, hx.append p⟩

/-- A settled node that is entered from one node only, and without any weight, is not deeper than
this node. -/
theorem IsLayering.le_of_entered {depth : ν → Nat} (h : IsLayering leads depth) {u v : ν}
    (hv : Settled leads v) (only : ∀ x w, leads x v w → x = u ∧ w = 0) : depth v ≤ depth u := by
  obtain ⟨x, path⟩ := (h.settled v hv).1
  generalize depth v = n at path
  cases path with
  | nil => exact Nat.zero_le _
  | snoc path arc =>
    obtain ⟨rfl, rfl⟩ := only _ _ arc
    exact (h.settled _ (hv.of_linked ⟨_, arc⟩)).2 ⟨x, path⟩

/-- No cycle leads through a node that no endless walk leads back from. -/
theorem not_onCycle_of_acc {v : ν} (h : Acc (Linked leads) v) : ¬ OnCycle leads v := by
  have hcycle := h.transGen
  induction hcycle with
  | intro v _ ih => exact fun hv => ih v hv (h.inv_of_transGen hv) hv

/-- Walking back from such a node leads to such nodes. -/
theorem acc_of_reflTransGen {u v : ν} (h : Acc (Linked leads) v)
    (huv : Relation.ReflTransGen (Linked leads) u v) : Acc (Linked leads) u := by
  induction huv with
  | refl => exact h
  | tail _ hlast ih => exact ih (h.inv hlast)

/-- Among finitely many nodes, those are settled that no endless walk leads back from. -/
theorem settled_iff_acc {nodes : List ν} (hnodes : ∀ u v w, leads u v w → u ∈ nodes) (v : ν) :
    Settled leads v ↔ Acc (Linked leads) v := by
  constructor
  · intro hv
    -- On the settled nodes of the graph, which are finitely many, being an ancestor is an order.
    let Node := {u : ν // u ∈ nodes ∧ Settled leads u}
    let before (x y : Node) : Prop := Relation.TransGen (Linked leads) x.1 y.1
    have hfinite : Finite Node := Set.Finite.subset nodes.finite_toSet fun _ hu => hu.1
    have htrans : IsTrans Node before := ⟨fun _ _ _ h k => h.trans k⟩
    have hirrefl : Std.Irrefl before := ⟨fun x hx => x.2.2 x.1 .refl hx⟩
    have hwf : WellFounded before := Finite.wellFounded_of_trans_of_irrefl before
    have hnode : ∀ x : Node, Acc (Linked leads) x.1 := by
      intro x
      induction x using hwf.induction with
      | _ x ih =>
        refine .intro _ fun u hu => ?_
        obtain ⟨w, hw⟩ := hu
        exact ih ⟨u, hnodes u x.1 w hw, x.2.2.of_linked ⟨w, hw⟩⟩ (.single ⟨w, hw⟩)
    refine .intro _ fun u hu => ?_
    obtain ⟨w, hw⟩ := hu
    exact hnode ⟨u, hnodes u v w hw, hv.of_linked ⟨w, hw⟩⟩
  · intro hv u hu
    exact not_onCycle_of_acc (acc_of_reflTransGen hv hu)

end Flowchart.Layering
