import Flowchart.Proofs.Layout.Progress

/-!
# Depths are the longest-path layering

The run that computes depths comes to an end with an empty queue and without a counter below zero
(`Progress.run`). Then the nodes taken are the settled ones, and the depths noted are those of the
longest-path layering (`Progress.isLayering`). For a diagram this is `depths_layering`. As there is
only one layering, the order of the edges does not matter.
-/

namespace Flowchart

namespace Depth

open Layering

/-! ## The whole run -/

section

variable {ids : List String} {arcs : List Arc}

/-- Following the arcs that are still to be followed for a node. -/
theorem Progress.follow_all (hknown : Known ids arcs) {taken : List String} {id : String}
    (hid : id ∈ taken) (rest : List Arc) (hrest : ∀ a ∈ rest, a.source = id) {followed : List Arc}
    {layers : Table String Layer} {queue : List String}
    (h : Progress ids arcs taken followed rest layers queue) :
    ∃ layers' queue', rest.foldlM (follow? (depthOf layers id)) (layers, queue) =
        some (layers', queue') ∧
      Progress ids arcs taken (followed ++ rest) [] layers' queue' := by
  induction rest generalizing followed layers queue with
  | nil => exact ⟨layers, queue, rfl, by rwa [List.append_nil]⟩
  | cons a rest ih =>
    have ha : a.source = id := hrest a List.mem_cons_self
    have hnext := h.follow hknown
    have hdepth := h.depthOf_taken hknown (ha ▸ hid)
    rw [ha] at hnext hdepth
    -- The node in hand keeps its depth, so the next arc is followed with the same one.
    obtain ⟨layers', queue', hfold, hlast⟩ :=
      ih (fun b hb => hrest b (List.mem_cons_of_mem a hb)) hnext
    rw [hdepth] at hfold
    refine ⟨layers', queue', ?_, ?_⟩
    · rw [List.foldlM_cons, h.follow?_eq hknown]
      exact hfold
    · rwa [List.append_assoc] at hlast

/-- A run that has the time to take all nodes ends with an empty queue, without a counter below
zero. -/
theorem Progress.run (hknown : Known ids arcs) (count : Nat) {taken : List String}
    {followed : List Arc} {layers : Table String Layer} {queue : List String}
    (h : Progress ids arcs taken followed [] layers queue)
    (hcount : ids.length ≤ taken.length + count) :
    ∃ more followed' layers', run? arcs count layers queue = some (more, layers') ∧
      Progress ids arcs (taken ++ more) followed' [] layers' [] := by
  induction count generalizing taken followed layers queue with
  | zero =>
    cases queue with
    | nil => exact ⟨[], followed, layers, rfl, by rwa [List.append_nil]⟩
    | cons id queue =>
      -- All nodes have been taken, so none can be left in the queue.
      have hlength := (List.subperm_of_subset h.nodup h.known).length_le
      rw [List.length_append, List.length_cons] at hlength
      omega
  | succ count ih =>
    cases queue with
    | nil => exact ⟨[], followed, layers, rfl, by rwa [List.append_nil]⟩
    | cons id queue =>
      -- The first node of the queue is taken, and all arcs that leave it are followed.
      have htake := h.take
      obtain ⟨layers', queue', hfold, hnext⟩ := htake.follow_all hknown
        (List.mem_append_right _ (List.mem_singleton_self id)) _
        (fun a ha => of_decide_eq_true (List.mem_filter.mp ha).2)
      have hcount' : ids.length ≤ (taken ++ [id]).length + count := by
        rw [List.length_append, List.length_singleton]
        omega
      obtain ⟨more, followed', layers'', hrun, hlast⟩ := ih hnext hcount'
      refine ⟨id :: more, followed', layers'', ?_, ?_⟩
      · rw [run?, hfold, Option.bind_eq_bind, Option.bind_some]
        dsimp only
        rw [hrun]
        rfl
      · rwa [List.append_assoc] at hlast

end

/-! ## What the depths are -/

section

variable {ids : List String} {arcs : List Arc} {taken : List String} {followed : List Arc}
  {layers : Table String Layer}

/-- In the end all arcs that leave nodes taken have been followed. -/
theorem Progress.mem_followed (h : Progress ids arcs taken followed [] layers []) {a : Arc} :
    a ∈ followed ↔ a ∈ arcs ∧ a.source ∈ taken := by
  have hb := h.balance.mem_iff (a := a)
  rwa [List.append_nil, List.mem_filter, decide_eq_true_eq] at hb

/-- In the end the settled nodes have been taken. -/
theorem Progress.mem_taken_iff (hknown : Known ids arcs)
    (h : Progress ids arcs taken followed [] layers []) (v : String) :
    v ∈ taken ↔ v ∈ ids ∧ Settled (Joined arcs) v := by
  have hsources : ∀ u v w, Joined arcs u v w → u ∈ ids := fun u v w hw => (hknown _ hw).1
  rw [settled_iff_acc hsources]
  constructor
  · intro hv
    -- Nothing leads back endlessly from a node taken, by the invariant.
    have hv' : v ∈ taken ++ [] := List.mem_append_left _ hv
    exact ⟨h.known v hv', h.grounded v hv'⟩
  · rintro ⟨hv, hacc⟩
    induction hacc with
    | intro v _ ih =>
      obtain ⟨l, hl⟩ := h.get?_eq hv
      -- All arcs to the node leave nodes taken, so none is waited for.
      have hnone : (arcs.filter (·.source ∉ taken)).countP (·.target = v) = 0 := by
        rw [List.countP_eq_zero]
        intro a ha ht
        obtain ⟨ha, hs⟩ := List.mem_filter.mp ha
        have hlinked : Joined arcs a.source v a.weight := of_decide_eq_true ht ▸ ha
        exact of_decide_eq_true hs (ih a.source ⟨a.weight, hlinked⟩ (hknown a ha).1)
      have hcount := countP_target h.balance v
      have hwaiting := h.waiting v l hl
      rw [List.countP_nil] at hcount
      have hready := (h.ready v l hl).mp (by omega)
      rwa [List.append_nil] at hready

/-- No path to a node taken weighs more than its depth. -/
theorem Progress.le_depthOf (h : Progress ids arcs taken followed [] layers []) {u v : String}
    {n : Nat} (path : Path (Joined arcs) u v n) (hv : v ∈ taken) : n ≤ depthOf layers v := by
  induction path with
  | nil => exact Nat.zero_le _
  | snoc path arc ih =>
    -- The last arc of the path leaves a node taken, and it has been followed.
    have hs := h.source_taken_of_ready arc (List.mem_append_left _ hv)
    have habove := h.heights.above _ (h.mem_followed.mpr ⟨arc, hs⟩)
    have hle := ih hs
    dsimp only at habove
    omega

/-- Some path to a node taken weighs as much as its depth. -/
theorem Progress.exists_path (h : Progress ids arcs taken followed [] layers []) {v : String}
    (hv : v ∈ taken) : ∃ u, Path (Joined arcs) u v (depthOf layers v) := by
  have hacc := h.grounded v (List.mem_append_left _ hv)
  induction hacc with
  | intro v _ ih =>
    rcases h.heights.attained v with hzero | ⟨a, ha, rfl, hdepth⟩
    · rw [hzero]
      exact ⟨v, .nil v⟩
    · obtain ⟨hmem, hs⟩ := h.mem_followed.mp ha
      obtain ⟨u, path⟩ := ih a.source ⟨a.weight, hmem⟩ hs
      rw [hdepth]
      exact ⟨u, path.snoc hmem⟩

/-- In the end the depths are the longest-path layering. -/
theorem Progress.isLayering (hknown : Known ids arcs)
    (h : Progress ids arcs taken followed [] layers []) :
    IsLayering (Joined arcs) (depthOf layers) := by
  -- The arcs from settled nodes are the arcs followed, which bound the depth of their targets.
  have harrivals : ∀ v n, n ∈ arrivals (Joined arcs) (depthOf layers) v ↔
      ∃ a ∈ followed, a.target = v ∧ n = depthOf layers a.source + a.weight := by
    intro v n
    constructor
    · rintro ⟨u, w, hu, hw, rfl⟩
      have hs := (h.mem_taken_iff hknown u).mpr ⟨(hknown _ hw).1, hu⟩
      exact ⟨⟨u, v, w⟩, h.mem_followed.mpr ⟨hw, hs⟩, rfl, rfl⟩
    · rintro ⟨a, ha, rfl, rfl⟩
      obtain ⟨hmem, hs⟩ := h.mem_followed.mp ha
      exact ⟨a.source, a.weight, ((h.mem_taken_iff hknown _).mp hs).2, hmem, rfl⟩
  have hupper : ∀ v,
      depthOf layers v ∈ upperBounds (arrivals (Joined arcs) (depthOf layers) v) := by
    intro v n hn
    obtain ⟨a, ha, rfl, rfl⟩ := (harrivals v n).mp hn
    exact h.heights.above a ha
  refine ⟨fun v hv => ?_, fun v _ hsome => ⟨?_, hupper v⟩, fun v _ hnone => ?_⟩
  · by_cases hid : v ∈ ids
    · have htaken := (h.mem_taken_iff hknown v).mpr ⟨hid, hv⟩
      exact ⟨h.exists_path htaken, fun n hn => hn.elim fun u path => h.le_depthOf path htaken⟩
    · -- No arc leads to an unknown node, and it has no layer.
      have hzero : depthOf layers v = 0 := by
        rw [depthOf, Table.get?_eq_none_iff.mpr (h.keys ▸ hid)]
        rfl
      rw [hzero]
      refine ⟨⟨v, .nil v⟩, ?_⟩
      rintro n ⟨u, path⟩
      cases path with
      | nil => exact Nat.le_refl 0
      | snoc path arc => exact absurd (hknown _ arc).2 hid
  · rcases h.heights.attained v with hzero | hattained
    · -- An arrival is at most zero, so it is the depth.
      obtain ⟨n, hn⟩ := hsome
      have hle := hupper v hn
      rw [hzero] at hle ⊢
      exact Nat.le_zero.mp hle ▸ hn
    · exact (harrivals v _).mpr hattained
  · rcases h.heights.attained v with hzero | hattained
    · exact hzero
    · have hm := (harrivals v _).mpr hattained
      rw [hnone] at hm
      exact absurd hm (Set.notMem_empty _)

end

end Depth

/-! ## The depths of a diagram -/

open Layering

/-- An edge between two different nodes of a diagram, with its weight. -/
def Diagram.Leads (d : Diagram) (u v : String) (w : Nat) : Prop :=
  ∃ e ∈ d.edges, e.leaves = u ∧ e.enters = v ∧ u ≠ v ∧ u ∈ d.nodes.map Node.id ∧
    v ∈ d.nodes.map Node.id ∧ w = if e.flag "branch_lane" then 0 else 1

/-- The ids are those of the nodes. -/
theorem Diagram.mem_ids {d : Diagram} {id : String} : id ∈ d.ids ↔ id ∈ d.nodes.map Node.id :=
  List.mem_eraseDups

/-- Nothing is left out of a list in which nothing occurs twice. -/
theorem eraseDups_of_nodup {ids : List String} (h : ids.Nodup) : ids.eraseDups = ids := by
  induction ids with
  | nil => rfl
  | cons id ids ih =>
    rw [List.nodup_cons] at h
    have hkept : ids.filter (fun other => !other == id) = ids := by
      rw [List.filter_eq_self]
      intro other ho
      have hne : other ≠ id := fun he => h.1 (he ▸ ho)
      simpa using hne
    rw [List.eraseDups_cons, hkept, ih h.2]

/-- The arcs are the edges between different nodes. -/
theorem Diagram.joined_arcs (d : Diagram) : Depth.Joined d.arcs = d.Leads := by
  funext u v w
  rw [eq_iff_iff, Depth.Joined, Diagram.arcs, List.mem_filterMap]
  constructor
  · rintro ⟨e, he, ha⟩
    unfold Depth.arc? at ha
    split at ha
    · rename_i hc
      obtain ⟨rfl, rfl, rfl⟩ := Arc.mk.inj (Option.some.inj ha)
      exact ⟨e, he, rfl, rfl, hc.1, Diagram.mem_ids.mp hc.2.1, Diagram.mem_ids.mp hc.2.2, rfl⟩
    · exact nomatch ha
  · rintro ⟨e, he, rfl, rfl, hne, hu, hv, rfl⟩
    refine ⟨e, he, ?_⟩
    rw [Depth.arc?, if_pos ⟨hne, Diagram.mem_ids.mpr hu, Diagram.mem_ids.mpr hv⟩]

/-- The arcs of a diagram connect its nodes. -/
theorem Diagram.known_arcs (d : Diagram) : Depth.Known d.ids d.arcs := by
  intro a ha
  have hleads : d.Leads a.source a.target a.weight := by
    rw [← d.joined_arcs]
    exact ha
  obtain ⟨e, -, -, -, -, hs, ht, -⟩ := hleads
  exact ⟨Diagram.mem_ids.mpr hs, Diagram.mem_ids.mpr ht⟩

/-- The run that computes the depths of a diagram keeps its counters and takes the settled nodes,
each of them once. Its depths are the longest-path layering. -/
theorem Diagram.run_depths (d : Diagram) (hd : (d.nodes.map Node.id).Nodup) :
    ∃ taken layers,
      Depth.run? d.arcs d.ids.length (Depth.initial d.ids d.arcs) (Depth.seeds d.ids d.arcs) =
        some (taken, layers) ∧
      taken.Nodup ∧ (∀ v, v ∈ taken ↔ v ∈ d.nodes.map Node.id ∧ Settled d.Leads v) ∧
      layers.keys = d.nodes.map Node.id ∧ IsLayering d.Leads (Depth.depthOf layers) ∧
      d.depths = layers.map fun (id, l) => (id, l.depth.getD 0) := by
  have hids : d.ids = d.nodes.map Node.id := eraseDups_of_nodup hd
  have hknown := d.known_arcs
  obtain ⟨taken, followed, layers, hrun, hlast⟩ :=
    (Depth.progress_initial (hids ▸ hd) d.arcs).run hknown d.ids.length (by simp)
  rw [List.nil_append] at hlast
  refine ⟨taken, layers, hrun, ?_, fun v => ?_, hids ▸ hlast.keys, ?_, ?_⟩
  · have hnodup := hlast.nodup
    rwa [List.append_nil] at hnodup
  · rw [hlast.mem_taken_iff hknown, d.joined_arcs, hids]
  · rw [← d.joined_arcs]
    exact hlast.isLayering hknown
  · rw [Diagram.depths, Depth.ofArcs, Depth.run?_eq _ hrun]

/-- The depths of a diagram are the entries of its longest-path layering. -/
theorem Diagram.depths_eq (d : Diagram) (hd : (d.nodes.map Node.id).Nodup) :
    d.depths.keys = d.nodes.map Node.id ∧
      IsLayering d.Leads (fun v => (d.depths.get? v).getD 0) := by
  obtain ⟨taken, layers, -, -, -, hkeys, hlayering, hdepths⟩ := d.run_depths hd
  have hget : ∀ v, (d.depths.get? v).getD 0 = Depth.depthOf layers v := by
    intro v
    rw [hdepths, Table.get?_map layers (fun l => l.depth.getD 0) v, Depth.depthOf]
    cases layers.get? v <;> rfl
  constructor
  · rw [hdepths, ← hkeys, Table.keys, Table.keys, List.map_map]
    rfl
  · rw [funext hget]
    exact hlayering

/-- A node has a depth. -/
theorem Diagram.exists_depth {d : Diagram} (hd : (d.nodes.map Node.id).Nodup) {id : String}
    (hid : id ∈ d.nodes.map Node.id) : ∃ m, d.depths.get? id = some m :=
  Option.isSome_iff_exists.mp (Table.has_iff.mpr ((d.depths_eq hd).1 ▸ hid))

/-- Edges in another order are the same arcs. -/
theorem Diagram.leads_congr {d e : Diagram} (hnodes : e.nodes = d.nodes)
    (hedges : e.edges.Perm d.edges) : e.Leads = d.Leads := by
  funext u v w
  unfold Diagram.Leads
  rw [hnodes, eq_iff_iff]
  exact exists_congr fun x => and_congr_left fun _ => hedges.mem_iff

/-- **Depths are the longest-path layering.** Every node of a diagram has a depth. A settled node
has the weight of a heaviest path to it, any other node the greatest depth that an edge from a
settled node gives it, or zero. No counter falls below zero, the settled nodes and no others are
taken, each of them once, and the order of the edges does not matter. -/
theorem depths_layering (d : Diagram) (hd : (d.nodes.map Node.id).Nodup) :
    d.depths.keys = d.nodes.map Node.id ∧
    IsLayering d.Leads (fun v => (d.depths.get? v).getD 0) ∧
    (∃ taken layers,
      Depth.run? d.arcs d.ids.length (Depth.initial d.ids d.arcs) (Depth.seeds d.ids d.arcs) =
        some (taken, layers) ∧
      taken.Nodup ∧ (∀ v, v ∈ taken ↔ v ∈ d.nodes.map Node.id ∧ Settled d.Leads v) ∧
      d.depths = layers.map fun (id, l) => (id, l.depth.getD 0)) ∧
    ∀ e : Diagram, e.nodes = d.nodes → e.edges.Perm d.edges → e.depths = d.depths := by
  obtain ⟨hkeys, hlayering⟩ := d.depths_eq hd
  obtain ⟨taken, layers, hrun, hnodup, htaken, -, -, hdepths⟩ := d.run_depths hd
  refine ⟨hkeys, hlayering, ⟨taken, layers, hrun, hnodup, htaken, hdepths⟩, ?_⟩
  -- With the edges in another order the layering is one of the same graph, so it is the same.
  intro e hnodes hedges
  obtain ⟨hkeys', hlayering'⟩ := e.depths_eq (hnodes ▸ hd)
  rw [Diagram.leads_congr hnodes hedges] at hlayering'
  have hsame := hlayering'.unique hlayering
  rw [hnodes, ← hkeys] at hkeys'
  have hd' : d.depths.keys.Nodup := hkeys ▸ hd
  -- Two tables with the same keys and the same entries are equal.
  have hentry : ∀ v ∈ d.depths.keys,
      (e.depths.get? v).map (Prod.mk v) = (d.depths.get? v).map (Prod.mk v) := by
    intro v hv
    obtain ⟨m, hm⟩ := Option.isSome_iff_exists.mp (Table.has_iff.mpr hv)
    obtain ⟨n, hn⟩ := Option.isSome_iff_exists.mp (Table.has_iff.mpr (hkeys' ▸ hv))
    have hmn := congrFun hsame v
    rw [hm, hn, Option.getD_some, Option.getD_some] at hmn
    rw [hm, hn, hmn]
  calc e.depths
      = e.depths.keys.filterMap fun v => (e.depths.get? v).map (Prod.mk v) :=
        Table.eq_filterMap_keys (hkeys' ▸ hd')
    _ = d.depths.keys.filterMap fun v => (d.depths.get? v).map (Prod.mk v) := by
        rw [hkeys']
        exact List.filterMap_congr hentry
    _ = d.depths := (Table.eq_filterMap_keys hd').symm

/-- Four icons; `b` and `c` lie on a cycle that is entered from `a` and left for `d`. -/
def cycleDiagram : Diagram where
  nodes := ["a", "b", "c", "d"].map fun id =>
    { id, kind := .action, column := 0, label := id, attributes := []
      block := .synthetic "action" id }
  edges := [("a", "b"), ("b", "c"), ("c", "b"), ("c", "d"), ("d", "d")].map fun (source, target) =>
    { source, target, kind := .main }

/-- Only the first icon is settled. The cycle is entered at depth one, and what is behind it has
none. -/
theorem depths_layering_cycle :
    (cycleDiagram.nodes.map Node.id).Nodup ∧
    cycleDiagram.depths = [("a", 0), ("b", 1), ("c", 0), ("d", 0)] ∧
    IsLayering cycleDiagram.Leads (fun v => (cycleDiagram.depths.get? v).getD 0) ∧
    ∀ e : Diagram, e.nodes = cycleDiagram.nodes → e.edges.Perm cycleDiagram.edges →
      e.depths = cycleDiagram.depths := by
  have hids : (cycleDiagram.nodes.map Node.id).Nodup := by decide
  obtain ⟨-, hlayering, -, horder⟩ := depths_layering cycleDiagram hids
  exact ⟨hids, by decide, hlayering, horder⟩

end Flowchart
