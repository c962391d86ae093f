import Mathlib.Data.List.Sort
import Flowchart.Proofs.Layout.Cells

/-!
# Layouts agree with their diagrams

A layout lists columns, positions and depths under the ids and the column numbers of a diagram. Each
of these tables is made by a pass of its own, and a pass that missed a key would put zero in its
place. `Layout.Consistent` says that none does: every node has one position and one depth, stands in
the column of its number and in no other, and has the height of its row.

`layOut_consistent` is the result for built diagrams. They can always be laid out, because the icons
of a built diagram have different ids and framing gives each of them a size; the settings matter
only as far as their ruler can measure.
-/

namespace Flowchart

namespace Arrangement

/-! ## Columns in order -/

/-- A number is put in its place. -/
theorem pairwise_insertNumber (n : Nat) {ms : List Nat} (h : ms.Pairwise (· < ·)) :
    (insertNumber n ms).Pairwise (· < ·) := by
  induction h with
  | nil => exact List.pairwise_singleton _ n
  | @cons m ms hm hms ih =>
    rw [insertNumber]
    split
    · rename_i hlt
      have hall : ∀ k ∈ m :: ms, n < k := by
        intro k hk
        rcases List.mem_cons.mp hk with rfl | hk
        · exact hlt
        · exact hlt.trans (hm k hk)
      exact List.pairwise_cons.mpr ⟨hall, List.pairwise_cons.mpr ⟨hm, hms⟩⟩
    · split
      · exact List.pairwise_cons.mpr ⟨hm, hms⟩
      · have hall : ∀ k ∈ insertNumber n ms, m < k := by
          intro k hk
          rcases mem_insertNumber.mp hk with rfl | hk
          · omega
          · exact hm k hk
        exact List.pairwise_cons.mpr ⟨hall, ih⟩

/-- Numbers in order increase strictly. -/
theorem pairwise_increasing (ns : List Nat) : (increasing ns).Pairwise (· < ·) := by
  induction ns with
  | nil => exact List.Pairwise.nil
  | cons n ns ih => exact pairwise_insertNumber n ih

/-! ## Members in order -/

section

variable {α : Type}

/-- A box is inserted as into any sorted list. -/
theorem insertBox_eq_orderedInsert (b : Box α) (boxes : List (Box α)) :
    insertBox b boxes = boxes.orderedInsert (fun b c => b.depth ≤ c.depth) b := by
  induction boxes with
  | nil => rfl
  | cons c boxes ih => rw [insertBox, List.orderedInsert_cons, ih]

/-- Sorting by depth neither adds nor drops a box. -/
theorem mem_byDepth {b : Box α} {boxes : List (Box α)} : b ∈ byDepth boxes ↔ b ∈ boxes := by
  have hsort : byDepth boxes = boxes.insertionSort (fun b c => b.depth ≤ c.depth) :=
    congrArg (boxes.foldr · []) (funext fun b => funext (insertBox_eq_orderedInsert b))
  rw [hsort]
  exact List.mem_insertionSort _

/-- The order of boxes by their depth, and of equally deep ones by an order of their own. -/
def Before (R : Box α → Box α → Prop) (b c : Box α) : Prop :=
  b.depth < c.depth ∨ b.depth = c.depth ∧ R b c

/-- A box that comes before all others in their own order may go before those that are not less
deep. -/
theorem pairwise_insertBox {R : Box α → Box α → Prop} {b : Box α} {boxes : List (Box α)}
    (hb : ∀ c ∈ boxes, R b c) (h : boxes.Pairwise (Before R)) :
    (insertBox b boxes).Pairwise (Before R) := by
  induction h with
  | nil => exact List.pairwise_singleton _ b
  | @cons c boxes hc hboxes ih =>
    rw [insertBox]
    split
    · rename_i hle
      have hbefore : ∀ x ∈ c :: boxes, Before R b x := by
        intro x hx
        have hdepth : b.depth ≤ x.depth := by
          rcases List.mem_cons.mp hx with rfl | hx
          · exact hle
          · rcases hc x hx with hlt | ⟨heq, -⟩ <;> omega
        exact hdepth.lt_or_eq.imp id fun heq => ⟨heq, hb x hx⟩
      exact List.pairwise_cons.mpr ⟨hbefore, List.pairwise_cons.mpr ⟨hc, hboxes⟩⟩
    · rename_i hlt
      have hbefore : ∀ x ∈ insertBox b boxes, Before R c x := by
        intro x hx
        rw [insertBox_eq_orderedInsert, List.mem_orderedInsert] at hx
        rcases hx with rfl | hx
        · exact .inl (Nat.lt_of_not_le hlt)
        · exact hc x hx
      exact List.pairwise_cons.mpr ⟨hbefore, ih fun x hx => hb x (List.mem_cons_of_mem c hx)⟩

/-- Boxes that are given in some order are sorted by their depth first and by this order next. -/
theorem pairwise_byDepth {R : Box α → Box α → Prop} {boxes : List (Box α)}
    (h : boxes.Pairwise R) : (byDepth boxes).Pairwise (Before R) := by
  induction h with
  | nil => exact List.Pairwise.nil
  | cons hb _ ih => exact pairwise_insertBox (fun c hc => hb c (mem_byDepth.mp hc)) ih

end

/-! ## Columns and their members -/

/-- Among members with different keys, a search for the key of one of them finds this one. -/
theorem find?_of_mem {β : Type} {key : β → Nat} {xs : List β} (hxs : (xs.map key).Nodup) {x : β}
    (hx : x ∈ xs) : xs.find? (key · = key x) = some x := by
  have hsome : (xs.find? (key · = key x)).isSome :=
    List.find?_isSome.mpr ⟨x, hx, decide_eq_true rfl⟩
  obtain ⟨y, hy⟩ := Option.isSome_iff_exists.mp hsome
  have hkey := List.find?_some hy
  rw [decide_eq_true_iff] at hkey
  rw [hy, List.inj_on_of_nodup_map hxs (List.mem_of_find?_eq_some hy) hx hkey]

/-- A box is a member of the column with its number. -/
theorem mem_membersOf {α : Type} {boxes : List (Box α)} {b : Box α} {column : Nat} :
    b ∈ membersOf boxes column ↔ b ∈ boxes ∧ b.column = column := by
  rw [membersOf, mem_byDepth, List.mem_filter, decide_eq_true_iff]

section

variable {α : Type} [Scalar α] (s : Spacing α) (boxes : List (Box α))

/-- There is one column for each number, in their order. -/
theorem indices_placeColumns (left : α) (ns : List Nat) :
    (placeColumns s boxes left ns).map Column.index = ns := by
  induction ns generalizing left with
  | nil => rfl
  | cons n ns ih => exact congrArg (n :: ·) (ih _)

/-- A column is as wide as its members need and lists them. -/
theorem eq_of_mem_placeColumns {left : α} {ns : List Nat} {column : Column α}
    (h : column ∈ placeColumns s boxes left ns) :
    column.width = columnWidth s (membersOf boxes column.index) ∧
      column.members = (membersOf boxes column.index).map Box.id := by
  induction ns generalizing left with
  | nil => exact absurd h List.not_mem_nil
  | cons n ns ih =>
    rcases List.mem_cons.mp h with rfl | h
    · exact ⟨rfl, rfl⟩
    · exact ih h

end

end Arrangement

/-! ## Consistent layouts -/

section

variable {α : Type}

/-- The row that a node of a diagram stands in: the one of its depth. Parameters stand in the row of
the start icon, if there is one. -/
inductive Layout.InRow (l : Layout α) (d : Diagram) (n : Node) : Nat → Prop
  /-- A node stands in the row of its depth. -/
  | own {depth : Nat} (alone : n.kind ≠ .parameters ∨ ∀ m ∈ d.nodes, m.kind ≠ .start)
      (own : l.depths.get? n.id = some depth) : InRow l d n depth
  /-- Parameters stand in the row of the first start. -/
  | start {start : Node} {depth : Nat} (parameters : n.kind = .parameters)
      (first : d.nodes.find? (·.kind = .start) = some start)
      (own : l.depths.get? start.id = some depth) : InRow l d n depth

/-- A layout agrees with its diagram. -/
structure Layout.Consistent (l : Layout α) (d : Diagram) : Prop where
  /-- Different nodes have different ids, by which they are found. -/
  nodup : (d.nodes.map Node.id).Nodup
  /-- There is one position for each node, in the order of the diagram. -/
  positions : l.arrangement.positions.map Prod.fst = d.nodes.map Node.id
  /-- There is one depth for each node. -/
  depths : l.depths.map Prod.fst = d.nodes.map Node.id
  /-- Columns stand in the order of their numbers. -/
  increasing : (l.arrangement.columns.map Column.index).Pairwise (· < ·)
  /-- There is a column for each number in use and for no other. -/
  used : ∀ index, index ∈ l.arrangement.columns.map Column.index ↔ ∃ n ∈ d.nodes, n.column = index
  /-- A node is listed in the column of its number and in no other, and its position is there. -/
  housed : ∀ n ∈ d.nodes, ∃ column ∈ l.arrangement.columns, column.index = n.column ∧
    n.id ∈ column.members ∧ (∀ other ∈ l.arrangement.columns, n.id ∈ other.members → other = column) ∧
    ∃ p, l.arrangement.positions.get? n.id = some p ∧ p.x = column.x
  /-- Columns list nothing but nodes. -/
  members : ∀ column ∈ l.arrangement.columns, ∀ id ∈ column.members, id ∈ d.nodes.map Node.id
  /-- Nodes of a column are listed by their depth, and equally deep ones as in the diagram. -/
  ordered : ∀ column ∈ l.arrangement.columns, column.members.Pairwise fun u v =>
    ∃ i j, l.depths.get? u = some i ∧ l.depths.get? v = some j ∧
      (i < j ∨ i = j ∧ [u, v].Sublist (d.nodes.map Node.id))
  /-- Every node stands in a row, and in one only. -/
  placed : ∀ n ∈ d.nodes, ∃! row, l.InRow d n row
  /-- Nodes of one row have the same height on the canvas. -/
  level : ∀ m ∈ d.nodes, ∀ n ∈ d.nodes, ∀ row, l.InRow d m row → l.InRow d n row →
    ∃ p q, l.arrangement.positions.get? m.id = some p ∧
      l.arrangement.positions.get? n.id = some q ∧ p.y = q.y

variable {d : Diagram}

/-- Rows are as the layout computes them. -/
theorem Layout.InRow.eq_row {l : Layout α} (hl : l.depths = d.depths) {n : Node} {row : Nat}
    (h : l.InRow d n row) : d.row n = row := by
  cases h with
  | own alone own =>
    rw [hl] at own
    have hdepth : Layout.depthOf d.depths n.id = row := by rw [Layout.depthOf, own, Option.getD_some]
    unfold Diagram.row Layout.rowOf
    split
    · rename_i start hkind hstart
      rcases alone with hother | hnone
      · exact absurd hkind hother
      · have hfound := List.find?_some hstart
        exact absurd (of_decide_eq_true hfound) (hnone start (List.mem_of_find?_eq_some hstart))
    · exact hdepth
  | @start start _ parameters first own =>
    rw [hl] at own
    show Layout.rowOf d.depths (d.nodes.find? (·.kind = .start)) n = row
    rw [first]
    unfold Layout.rowOf
    rw [parameters]
    show (d.depths.get? start.id).getD 0 = row
    rw [own, Option.getD_some]

/-- Where every node has a depth, every node stands in a row. -/
theorem Layout.exists_inRow {l : Layout α}
    (hdepths : l.depths.map Prod.fst = d.nodes.map Node.id) {n : Node} (hn : n ∈ d.nodes) :
    ∃ row, l.InRow d n row := by
  have hdepth : ∀ m ∈ d.nodes, ∃ depth, l.depths.get? m.id = some depth := by
    intro m hm
    have hkey : m.id ∈ l.depths.keys := by
      rw [Table.keys, hdepths]
      exact List.mem_map_of_mem hm
    exact Option.isSome_iff_exists.mp (Table.has_iff.mpr hkey)
  cases hfirst : d.nodes.find? (·.kind = .start) with
  | none =>
    obtain ⟨depth, hn⟩ := hdepth n hn
    have hnone : ∀ m ∈ d.nodes, m.kind ≠ .start := by simpa using hfirst
    exact ⟨depth, .own (.inr hnone) hn⟩
  | some start =>
    by_cases hkind : n.kind = .parameters
    · obtain ⟨depth, hstart⟩ := hdepth start (List.mem_of_find?_eq_some hfirst)
      exact ⟨depth, .start hkind hfirst hstart⟩
    · obtain ⟨depth, hn⟩ := hdepth n hn
      exact ⟨depth, .own (.inl hkind) hn⟩

variable [Scalar α] (s : Spacing α) (size : Node → Size α)

/-- The columns of a layout are those of the nodes, in increasing order. -/
theorem Diagram.indices_columns :
    (d.layout s size).arrangement.columns.map Column.index =
      Arrangement.increasing (d.nodes.map Node.column) := by
  have hcolumns : (d.nodes.map (d.box size)).map Box.column = d.nodes.map Node.column :=
    List.map_map
  rw [← hcolumns]
  exact Arrangement.indices_placeColumns s _ _ _

/-- Different columns have different numbers. -/
theorem Diagram.nodup_columns :
    ((d.layout s size).arrangement.columns.map Column.index).Nodup := by
  rw [d.indices_columns]
  exact (Arrangement.pairwise_increasing _).imp Nat.ne_of_lt

variable {s size}

/-- A column has the nodes with its number as members. -/
theorem Diagram.mem_members {column : Column α} (hc : column ∈ (d.layout s size).arrangement.columns)
    {id : String} :
    id ∈ column.members ↔ ∃ n ∈ d.nodes, n.id = id ∧ n.column = column.index := by
  have hmembers := (Arrangement.eq_of_mem_placeColumns s (d.nodes.map (d.box size)) hc).2
  rw [hmembers, List.mem_map]
  constructor
  · rintro ⟨b, hb, rfl⟩
    obtain ⟨hb, hcolumn⟩ := Arrangement.mem_membersOf.mp hb
    obtain ⟨n, hn, rfl⟩ := List.mem_map.mp hb
    exact ⟨n, hn, rfl, hcolumn⟩
  · rintro ⟨n, hn, rfl, hcolumn⟩
    have hb : d.box size n ∈ d.nodes.map (d.box size) := List.mem_map_of_mem hn
    exact ⟨d.box size n, Arrangement.mem_membersOf.mpr ⟨hb, hcolumn⟩, rfl⟩

/-- The search for the column of a node finds the one with its number. -/
theorem Diagram.column?_eq {n : Node} {column : Column α}
    (hc : column ∈ (d.layout s size).arrangement.columns) (hcolumn : column.index = n.column) :
    Arrangement.column? (d.layout s size).arrangement.columns n.column = some column := by
  rw [← hcolumn]
  exact Arrangement.find?_of_mem (d.nodup_columns s size) hc

/-- A node stands in the middle of the column with its number. -/
theorem Diagram.place_x {n : Node} {column : Column α}
    (hc : column ∈ (d.layout s size).arrangement.columns) (hcolumn : column.index = n.column) :
    (d.place s size n).x = column.x := by
  show ((Arrangement.column? (d.layout s size).arrangement.columns n.column).map Column.x).getD _ = _
  rw [Diagram.column?_eq hc hcolumn, Option.map_some, Option.getD_some]

/-- Nodes in the same row stand at the same height. -/
theorem Diagram.place_y {m n : Node} (hrow : d.row m = d.row n) :
    (d.place s size m).y = (d.place s size n).y := by
  unfold Diagram.place Arrangement.centre Diagram.box
  dsimp only
  rw [hrow]

/-- The members of a column are in the order of their depth, then in that of the diagram. -/
theorem Diagram.ordered_members (hd : (d.nodes.map Node.id).Nodup) {column : Column α}
    (hc : column ∈ (d.layout s size).arrangement.columns) :
    column.members.Pairwise fun u v => ∃ i j, d.depths.get? u = some i ∧ d.depths.get? v = some j ∧
      (i < j ∨ i = j ∧ [u, v].Sublist (d.nodes.map Node.id)) := by
  have hmembers := (Arrangement.eq_of_mem_placeColumns s (d.nodes.map (d.box size)) hc).2
  have hgiven : ((d.nodes.map (d.box size)).filter (·.column = column.index)).Pairwise fun b c =>
      [b.id, c.id].Sublist (d.nodes.map Node.id) := by
    refine List.pairwise_iff_forall_sublist.mpr fun {b c} hpair => ?_
    rw [← d.ids_boxes size]
    exact (hpair.trans List.filter_sublist).map Box.id
  have hsorted := Arrangement.pairwise_byDepth hgiven
  rw [hmembers, List.pairwise_map]
  refine hsorted.imp_of_mem fun {b c} hb hc hbefore => ?_
  have hdepth : ∀ b ∈ Arrangement.membersOf (d.nodes.map (d.box size)) column.index,
      d.depths.get? b.id = some b.depth := by
    intro b hb
    obtain ⟨n, hn, rfl⟩ := List.mem_map.mp (Arrangement.mem_membersOf.mp hb).1
    obtain ⟨depth, hn⟩ := Diagram.exists_depth hd (List.mem_map_of_mem (f := Node.id) hn)
    show d.depths.get? n.id = some ((d.depths.get? n.id).getD 0)
    rw [hn, Option.getD_some]
  exact ⟨b.depth, c.depth, hdepth b hb, hdepth c hc, hbefore⟩

/-- A diagram whose nodes have different ids, and sizes, has a layout that agrees with it. -/
theorem Layout.consistent (hd : (d.nodes.map Node.id).Nodup) (s : Spacing α)
    {sizeOf : Node → Option (Size α)} (h : ∀ n ∈ d.nodes, sizeOf n = some (size n)) :
    ∃ l, Layout.ofDiagram s sizeOf d = .ok l ∧ l.Consistent d := by
  refine ⟨d.layout s size, Layout.ofDiagram_eq s h, ?_⟩
  have hkeys : d.depths.map Prod.fst = d.nodes.map Node.id := (d.depths_eq hd).1
  have hused : ∀ index, index ∈ (d.layout s size).arrangement.columns.map Column.index ↔
      ∃ n ∈ d.nodes, n.column = index := by
    intro index
    rw [d.indices_columns, Arrangement.mem_increasing, List.mem_map]
  have hplace : ∀ n ∈ d.nodes, (d.layout s size).arrangement.positions.get? n.id =
      some (d.place s size n) := fun n hn => Diagram.get?_positions hd s size hn
  exact
    { nodup := hd
      positions := d.ids_positions hd s size
      depths := hkeys
      increasing := by
        rw [d.indices_columns]
        exact Arrangement.pairwise_increasing _
      used := hused
      housed := by
        intro n hn
        obtain ⟨column, hc, hcolumn⟩ := List.mem_map.mp ((hused n.column).mpr ⟨n, hn, rfl⟩)
        have hlisted : n.id ∈ column.members :=
          (Diagram.mem_members hc).mpr ⟨n, hn, rfl, hcolumn.symm⟩
        have honly : ∀ other ∈ (d.layout s size).arrangement.columns, n.id ∈ other.members →
            other = column := by
          intro other ho hmem
          -- The node with the id of `n` is `n` itself, and a number belongs to one column.
          obtain ⟨m, hm, hid, hother⟩ := (Diagram.mem_members ho).mp hmem
          obtain rfl : m = n := List.inj_on_of_nodup_map hd hm hn hid
          exact List.inj_on_of_nodup_map (d.nodup_columns s size) ho hc
            (hother.symm.trans hcolumn.symm)
        exact ⟨column, hc, hcolumn, hlisted, honly, _, hplace n hn, Diagram.place_x hc hcolumn⟩
      members := by
        intro column hc id hid
        obtain ⟨n, hn, rfl, -⟩ := (Diagram.mem_members hc).mp hid
        exact List.mem_map_of_mem hn
      ordered := fun column hc => Diagram.ordered_members hd hc
      placed := by
        intro n hn
        obtain ⟨row, hrow⟩ := Layout.exists_inRow (l := d.layout s size) hkeys hn
        exact ⟨row, hrow, fun other ho => (ho.eq_row rfl).symm.trans (hrow.eq_row rfl)⟩
      level := by
        intro m hm n hn row hmrow hnrow
        have hrow : d.row m = d.row n := (hmrow.eq_row rfl).trans (hnrow.eq_row rfl).symm
        exact ⟨_, _, hplace m hm, hplace n hn, Diagram.place_y hrow⟩ }

end

/-! ## Built diagrams -/

/-- The nodes of a built diagram have different ids. -/
theorem Diagram.nodup_of_build {document : List Statement} {diagram : Diagram}
    (h : (Diagram.build document).1 = some diagram) : (diagram.nodes.map Node.id).Nodup := by
  obtain ⟨d, hlast, rfl, -⟩ := build_eq_getLast? document diagram _ (Prod.ext h rfl)
  exact (closed_of_mem_contexts (List.mem_of_getLast? hlast)).registry.nodup

/-- A framed diagram whose nodes have different ids has a layout that agrees with it. -/
theorem Diagram.framed_consistent {d : Diagram} (hd : (d.nodes.map Node.id).Nodup)
    (s : Spacing Float32) (measure : Measure) :
    ∃ layout, Layout.ofDiagram s Layout.frameSize (d.framed measure) = .ok layout ∧
      layout.Consistent (d.framed measure) :=
  Layout.consistent ((d.ids_framed measure).symm ▸ hd) s fun _ hn => Diagram.frameSize_framed hn

/-- Every source with a root can be laid out, with all settings whose ruler can measure, whatever the
fonts of the machine are, and for any measure at all. The layout agrees with the diagram: it has one
position and one depth for each node, the columns in use in their order, every node in its own column
and at the height of its row, and the nodes of a column by their depth and then as in the diagram. -/
theorem layOut_consistent (source : String) (root : Block)
    (hroot : root ∈ (Document.read source).statements.filterMap Statement.block?)
    (hname : root.name = "drakon") :
    ∃ diagram, (Document.read source).diagram = some diagram ∧
      (∀ (settings : Settings) (shaper : Shaper), settings.text.fault? = none → ∃ layout,
        settings.layOut shaper diagram =
            .ok (diagram.framed (settings.text.measure shaper), layout) ∧
          layout.Consistent (diagram.framed (settings.text.measure shaper))) ∧
      ∀ (s : Spacing Float32) (measure : Measure), ∃ layout,
        Layout.ofDiagram s Layout.frameSize (diagram.framed measure) = .ok layout ∧
          layout.Consistent (diagram.framed measure) := by
  -- Some block is the first one of this name.
  have hsome : (rootBlock? (Document.read source).statements).isSome :=
    List.find?_isSome.mpr ⟨root, hroot, decide_eq_true hname⟩
  obtain ⟨first, hfirst⟩ := Option.isSome_iff_exists.mp hsome
  have hbuild : (Diagram.build (Document.read source).statements).1 =
      some (Draft.ofRoot first).diagram := by
    rw [Diagram.build, hfirst]
  have hd := Diagram.nodup_of_build hbuild
  refine ⟨_, hbuild, fun settings shaper hvalid => ?_, Diagram.framed_consistent hd⟩
  obtain ⟨layout, hlayout, hconsistent⟩ :=
    Diagram.framed_consistent hd settings.spacing (settings.text.measure shaper)
  refine ⟨layout, ?_, hconsistent⟩
  unfold Settings.layOut
  rw [hvalid]
  dsimp only
  rw [hlayout]

/-- Parameters beside the start, and two lanes. -/
def columnsSource : String :=
  "drakon \"d\" \x7b parameters = \"p\" lane \"l\" \x7b action \"a\" \x7b\x7d \x7d " ++
    "lane \"r\" \x7b action \"b\" \x7b\x7d \x7d \x7d"

/-- With the settings there are unless others are read, and whatever the fonts of the machine are, the
icon of the second lane stands in its column. -/
theorem layOut_consistent_lanes :
    ∃ root ∈ (Document.read columnsSource).statements.filterMap Statement.block?,
      root.name = "drakon" ∧ TextSettings.fault? {} = none ∧
        ∃ diagram, (Document.read columnsSource).diagram = some diagram ∧
          ∀ shaper, ∃ layout,
            Settings.layOut {} shaper diagram =
                .ok (diagram.framed (TextSettings.measure {} shaper), layout) ∧
              ∃ column ∈ layout.arrangement.columns, column.index = 1 ∧ "b" ∈ column.members ∧
                ∃ p, layout.arrangement.positions.get? "b" = some p ∧ p.x = column.x := by
  have hblocks : ((Document.read columnsSource).statements.filterMap Statement.block?).any
      (fun root => root.name = "drakon") = true := by decide +kernel
  obtain ⟨root, hroot, hname⟩ := List.any_eq_true.mp hblocks
  have hname := of_decide_eq_true hname
  have hvalid : TextSettings.fault? {} = none := by decide +kernel
  obtain ⟨diagram, hdiagram, hsettings, -⟩ := layOut_consistent columnsSource root hroot hname
  have hnode : (Document.read columnsSource).diagram.all (fun diagram =>
      diagram.nodes.any fun n => n.id = "b" ∧ n.column = 1) = true := by
    decide +kernel
  rw [hdiagram] at hnode
  obtain ⟨n, hn, hnode⟩ := List.any_eq_true.mp hnode
  obtain ⟨hid, hcolumn⟩ := of_decide_eq_true hnode
  refine ⟨root, hroot, hname, hvalid, diagram, hdiagram, fun shaper => ?_⟩
  obtain ⟨layout, hlayout, hconsistent⟩ := hsettings {} shaper hvalid
  -- A frame changes neither the id nor the column of a node.
  obtain ⟨column, hc, hindex, hlisted, -, hposition⟩ :=
    hconsistent.housed _ (List.mem_map_of_mem hn)
  dsimp only at hindex hlisted hposition
  rw [hid] at hlisted hposition
  rw [hcolumn] at hindex
  exact ⟨layout, hlayout, column, hc, hindex, hlisted, hposition⟩

end Flowchart
