import Flowchart.Proofs.Draft.Step

/-!
# The tables of a draft agree with its nodes

`Registry` says how the ids in use, the columns and the claimed names of a draft hang together with
the nodes of its diagram. A new draft has the property (`registry_new`) and every operation keeps it
(`Step.registry`).

The columns and the ids depend on the nodes only through where each of them stands, `places`; this
is why a change of a node's attributes does not matter.
-/

namespace Flowchart

/-- The column and the id of every node, in the order of the diagram. -/
def Diagram.places (d : Diagram) : List (Nat × String) := d.nodes.map fun n => (n.column, n.id)

/-- A view that a change of a member keeps is the same after the change. -/
theorem map_changeFirst {α β : Type} {test : α → Bool} {change : α → α} {view : α → β}
    (h : ∀ a, view (change a) = view a) (as : List α) :
    (changeFirst test change as).map view = as.map view := by
  induction as with
  | nil => rfl
  | cons a as ih =>
    rw [changeFirst]
    split
    · rw [List.map_cons, List.map_cons, h]
    · rw [List.map_cons, List.map_cons, ih]

/-- A view of a list with one more member at an end. -/
theorem Placement.map_add {α β : Type} (p : Placement) (f : α → β) (a : α) (as : List α) :
    (p.add a as).map f = p.add (f a) (as.map f) := by
  cases p with
  | back => rw [Placement.add, Placement.add, List.map_append, List.map_singleton]
  | front => rw [Placement.add, Placement.add, List.map_cons]

/-- One more member at an end passes a test or is left out. -/
theorem Placement.filter_add {α : Type} (p : Placement) (test : α → Bool) (a : α) (as : List α) :
    (p.add a as).filter test = if test a then p.add a (as.filter test) else as.filter test := by
  cases p with
  | back =>
    rw [Placement.add, Placement.add, List.filter_append, List.filter_singleton]
    cases test a <;> simp
  | front => rw [Placement.add, Placement.add, List.filter_cons]

/-- One more member at an end is a permutation of one more member in front. -/
theorem Placement.add_perm {α : Type} (p : Placement) (a : α) (as : List α) :
    (p.add a as).Perm (a :: as) := by
  cases p with
  | back => exact List.perm_append_singleton a as
  | front => exact List.Perm.refl _

namespace Draft

/-- The tables of a draft agree with the nodes of its diagram. -/
structure Registry (d : Draft) : Prop where
  /-- No two nodes have the same id. -/
  nodup : (d.diagram.nodes.map Node.id).Nodup
  /-- The ids in use are those of the nodes. -/
  ids : d.ids.keys.Perm (d.diagram.nodes.map Node.id)
  /-- A column lists the ids of its nodes in the order of the diagram. -/
  columns : ∀ c, d.columnIds c = (d.diagram.nodes.filter (·.column = c)).map Node.id
  /-- No column is open twice. -/
  columns_nodup : d.columns.keys.Nodup
  /-- Every claimed name leads to a node. -/
  aliases : ∀ name id, (name, id) ∈ d.aliases → d.hasNode id
  /-- The id of every node is a claimed name, if not blank. -/
  named : ∀ id, d.hasNode id → ∀ name, Text.trimmed? id = some name → d.aliases.has name
  /-- The next column to open is greater than every open one. -/
  lt_nextColumn : ∀ c ∈ d.columns.keys, c < d.nextColumn

/-- A change of a node that keeps its id and its column keeps all places. -/
theorem places_change (d : Diagram) (id : String) {change : Node → Node}
    (h : ∀ n, ((change n).column, (change n).id) = (n.column, n.id)) :
    (d.change id change).places = d.places := by
  unfold Diagram.change Diagram.places
  exact map_changeFirst h _

/-- The ids of a diagram's nodes, by their places. -/
theorem map_id_eq_places (d : Diagram) : d.nodes.map Node.id = d.places.map Prod.snd := by
  rw [Diagram.places, List.map_map]
  rfl

/-- The ids of the nodes in a column, by their places. -/
theorem filter_column_eq_places (d : Diagram) (c : Nat) :
    (d.nodes.filter (·.column = c)).map Node.id =
      (d.places.filter (·.1 = c)).map Prod.snd := by
  rw [Diagram.places, List.filter_map, List.map_map]
  rfl

/-- A draft whose diagram has its nodes in the same places, and whose tables are the same, agrees
with its nodes as well. -/
theorem Registry.of_places {d e : Draft} (h : d.Registry)
    (places : e.diagram.places = d.diagram.places) (ids : e.ids = d.ids)
    (columns : e.columns = d.columns) (aliases : e.aliases = d.aliases)
    (nextColumn : e.nextColumn = d.nextColumn) : e.Registry where
  nodup := by
    rw [map_id_eq_places, places, ← map_id_eq_places]
    exact h.nodup
  ids := by
    rw [map_id_eq_places, places, ← map_id_eq_places, ids]
    exact h.ids
  columns c := by
    rw [filter_column_eq_places, places, ← filter_column_eq_places, columnIds, columns]
    exact h.columns c
  columns_nodup := columns ▸ h.columns_nodup
  aliases := by
    rw [aliases]
    intro name id hm
    rw [hasNode, ids]
    exact h.aliases name id hm
  named := by
    rw [aliases]
    intro id hid
    rw [hasNode, ids] at hid
    exact h.named id hid
  lt_nextColumn := by
    rw [columns, nextColumn]
    exact h.lt_nextColumn

/-! ## What follows from the agreement -/

/-- An id is in use when it is the id of a node. -/
theorem Registry.hasNode_iff_mem {d : Draft} (h : d.Registry) {id : String} :
    d.hasNode id = true ↔ id ∈ d.diagram.nodes.map Node.id := by
  rw [hasNode_iff]
  exact h.ids.mem_iff

/-- The ids of nodes are in use. -/
theorem Registry.hasNode_of_mem {d : Draft} (h : d.Registry) {n : Node}
    (hn : n ∈ d.diagram.nodes) : d.hasNode n.id = true :=
  h.hasNode_iff_mem.mpr (List.mem_map_of_mem hn)

/-- What a column lists are ids in use. -/
theorem Registry.hasNode_of_mem_column {d : Draft} (h : d.Registry) {c : Nat} {id : String}
    (hm : id ∈ d.columnIds c) : d.hasNode id = true := by
  rw [h.columns c, List.mem_map] at hm
  obtain ⟨n, hn, rfl⟩ := hm
  exact h.hasNode_of_mem (List.mem_of_mem_filter hn)

/-- A node is listed in its own column and in no other. -/
theorem Registry.mem_columnIds_iff {d : Draft} (h : d.Registry) {n : Node}
    (hn : n ∈ d.diagram.nodes) (c : Nat) : n.id ∈ d.columnIds c ↔ c = n.column := by
  rw [h.columns c, List.mem_map]
  constructor
  · -- A node of the column with this id is the node itself, for ids are distinct.
    rintro ⟨m, hm, hid⟩
    rw [List.mem_filter, decide_eq_true_eq] at hm
    rw [← hm.2, List.inj_on_of_nodup_map h.nodup hm.1 hn hid]
  · rintro rfl
    exact ⟨n, List.mem_filter.mpr ⟨hn, decide_eq_true rfl⟩, rfl⟩

/-- The ids in a column are distinct. -/
theorem Registry.nodup_columnIds {d : Draft} (hd : d.Registry) (c : Nat) :
    (d.columnIds c).Nodup := by
  rw [hd.columns c]
  exact (List.filter_sublist.map Node.id).nodup hd.nodup

/-- A node is in one column. -/
theorem Registry.column_eq {d : Draft} (hd : d.Registry) {id : String} {c c' : Nat}
    (h : id ∈ d.columnIds c) (h' : id ∈ d.columnIds c') : c = c' := by
  obtain ⟨n, hn, rfl⟩ := List.mem_map.mp (hd.hasNode_iff_mem.mp (hd.hasNode_of_mem_column h))
  rw [(hd.mem_columnIds_iff hn c).mp h, (hd.mem_columnIds_iff hn c').mp h']

/-- The node that a claimed name leads to has an id in use. -/
theorem Registry.hasNode_of_alias {d : Draft} (h : d.Registry) {name id : String}
    (hn : d.aliases.get? name = some id) : d.hasNode id = true :=
  h.aliases name id (Table.mem_of_get? hn)

/-! ## The operations keep the agreement -/

/-- A new draft has no nodes, and its tables say so. -/
theorem registry_new (anchorBase title : String) (metadata : Attributes) :
    (Draft.new anchorBase title metadata).Registry where
  nodup := List.nodup_nil
  ids := List.Perm.refl _
  columns c := by
    unfold columnIds Draft.new
    rw [Table.get?, Table.get?_nil]
    split <;> rfl
  columns_nodup := List.nodup_singleton _
  aliases _ _ h := absurd h List.not_mem_nil
  named _ h := nomatch h
  lt_nextColumn c hc := by
    rw [List.mem_singleton.mp hc]
    exact Nat.lt_succ_self _

/-- Opening a column keeps the agreement. -/
theorem Registry.useColumn {d : Draft} (h : d.Registry) (column : Nat) :
    (d.useColumn column).Registry where
  nodup := h.nodup
  ids := h.ids
  columns c := by
    rw [columnIds_useColumn]
    exact h.columns c
  columns_nodup := nodup_columns_useColumn h.columns_nodup column
  aliases := h.aliases
  named := h.named
  lt_nextColumn c hc := by
    have hnext : (d.useColumn column).nextColumn = max d.nextColumn (column + 1) := rfl
    rw [hnext]
    rcases mem_columns_useColumn.mp hc with rfl | hc
    · omega
    · have := h.lt_nextColumn c hc
      omega

/-- Claiming a name for a node keeps the agreement. -/
theorem Registry.claim {d : Draft} (h : d.Registry) (name : String) {id : String}
    (known : d.hasNode id) : (d.claim name id).Registry := by
  obtain ⟨a, ha, he⟩ := claim_eq d name id
  rw [he]
  refine ⟨h.nodup, h.ids, h.columns, h.columns_nodup, fun n i hm => ?_,
    fun i hi n hn => ha.has (h.named i hi n hn), h.lt_nextColumn⟩
  rcases ha.new n i hm with hm | rfl
  · exact h.aliases n i hm
  · exact known

/-- Entering a node under a free id keeps the agreement. -/
theorem Registry.enter {d : Draft} (h : d.Registry) (node : Node) (p : Placement)
    (free : d.hasNode node.id = false) : (d.enter node p).Registry := by
  obtain ⟨a, ha, he⟩ := enter_eq d node p
  have hfree : node.id ∉ d.ids.keys := fun hm => by
    rw [hasNode_iff.mpr hm] at free
    exact Bool.noConfusion free
  have hnew : node.id ∉ d.diagram.nodes.map Node.id := fun hm => hfree (h.ids.mem_iff.mpr hm)
  have hcolumns := columnIds_enter d node p
  rw [he] at hcolumns ⊢
  refine ⟨?_, ?_, fun c => ?_, ?_, fun n i hm => ?_, fun i hi n hn => ?_, fun c hc => ?_⟩
  · -- The ids of the nodes are the new one and the old ones, up to their order.
    dsimp only
    rw [p.map_add, (p.add_perm _ _).nodup_iff, List.nodup_cons]
    exact ⟨hnew, h.nodup⟩
  · dsimp only
    rw [Table.keys_put, if_neg hfree, p.map_add]
    exact (List.perm_append_singleton _ _).trans ((h.ids.cons _).trans (p.add_perm _ _).symm)
  · -- The node's own column gets its id at the same end as the diagram; no other one changes.
    rw [hcolumns c, p.filter_add]
    by_cases hc : node.column = c
    · rw [if_pos hc, if_pos (decide_eq_true hc), p.map_add, ← h.columns c]
    · rw [if_neg hc, if_neg (by simpa using hc), ← h.columns c]
  · exact Table.nodup_keys_put (nodup_columns_useColumn h.columns_nodup _) _ _
  · -- A claimed name leads where it led before, or to the new node.
    rw [hasNode_iff]
    refine Table.mem_keys_put.mpr ?_
    rcases ha.new n i hm with hm | rfl
    · exact .inr (hasNode_iff.mp (h.aliases n i hm))
    · exact .inl rfl
  · rcases Table.mem_keys_put.mp (hasNode_iff.mp hi) with rfl | hi
    · exact ha.claimed node.id List.mem_cons_self n hn
    · exact ha.has (h.named i (hasNode_iff.mpr hi) n hn)
  · -- The next column moves behind the column of the node.
    have hopen : c = node.column ∨ c ∈ d.columns.keys := by
      rcases Table.mem_keys_put.mp hc with rfl | hc
      · exact .inl rfl
      · exact mem_columns_useColumn.mp hc
    dsimp only
    rcases hopen with rfl | hc
    · omega
    · have := h.lt_nextColumn c hc
      omega

/-- Every operation keeps the agreement. -/
theorem Step.registry {d e : Draft} (hs : d.Step e) (h : d.Registry) : e.Registry := by
  cases hs with
  | useColumn column => exact h.useColumn column
  | enter node p free => exact h.enter node p free
  | claim name id known => exact h.claim name known
  | setLabel id label => exact h.of_places (places_change _ id fun _ => rfl) rfl rfl rfl rfl
  | setAttribute id key value =>
    exact h.of_places (places_change _ id fun _ => rfl) rfl rfl rfl rfl
  | settle =>
    rw [settleEdges_eq]
    exact h.of_places rfl rfl rfl rfl rfl
  | _ => exact h.of_places rfl rfl rfl rfl rfl

end Draft

end Flowchart
