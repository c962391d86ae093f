import Mathlib.Algebra.Order.Field.Rat
import Mathlib.Tactic.Linarith
import Flowchart.Drawing
import Flowchart.Proofs.Draft.Contexts
import Flowchart.Proofs.Layout.Depth

/-!
# Where nodes stand

A node stands in the centre of the cell of its column and its row. Read over exact numbers, different
columns and different rows have different centres, because each leaves room for itself and a gap. So
two nodes are drawn on top of each other exactly if they share their column and their row
(`positions_eq_iff`).

Nothing keeps nodes of a column in different rows but edges: a path to a settled node pushes it below
the node from which it starts. A node without incoming edges, as one behind a question that leads
elsewhere, has depth zero like the start.
-/

namespace Flowchart

/-- Exact lengths. -/
instance : Scalar ℚ where
  ofNat n := n
  larger := max
  smaller := min

namespace Arrangement

/-! ## Numbers in order -/

/-- The list has the new number and those that it had. -/
theorem mem_insertNumber {n m : Nat} {ms : List Nat} : m ∈ insertNumber n ms ↔ m = n ∨ m ∈ ms := by
  induction ms with
  | nil => simp [insertNumber]
  | cons k ms ih =>
    rw [insertNumber]
    split
    · simp
    · split
      · rename_i heq
        simp [heq]
      · simp [ih, or_left_comm]

/-- The numbers in order are the given ones. -/
theorem mem_increasing {n : Nat} {ns : List Nat} : n ∈ increasing ns ↔ n ∈ ns := by
  induction ns with
  | nil => exact Iff.rfl
  | cons m ns ih =>
    rw [List.mem_cons, ← ih]
    exact mem_insertNumber

/-! ## Bands -/

section

variable {α : Type} [Scalar α]

/-- The centres of bands of some extents that stand one behind the other, with a gap after each. -/
def bands (extent : Nat → α) (gap start : α) : List Nat → Table Nat α
  | [] => []
  | index :: rest =>
    (index, start + half (extent index)) :: bands extent gap (start + (extent index + gap)) rest

/-- There is one centre for each number, in their order. -/
theorem keys_bands (extent : Nat → α) (gap start : α) (ns : List Nat) :
    (bands extent gap start ns).keys = ns := by
  induction ns generalizing start with
  | nil => rfl
  | cons n ns ih => exact congrArg (n :: ·) (ih _)

/-- Columns are bands. -/
theorem column?_placeColumns (s : Spacing α) (boxes : List (Box α)) (left : α) (ns : List Nat)
    (index : Nat) :
    (column? (placeColumns s boxes left ns) index).map Column.x =
      (bands (fun n => columnWidth s (membersOf boxes n)) s.columnGap left ns).get? index := by
  induction ns generalizing left with
  | nil => rfl
  | cons n ns ih =>
    rw [placeColumns, bands, Table.get?, ← ih]
    unfold column?
    rw [List.find?_cons]
    split <;> simp_all

/-- Rows are bands. -/
theorem row?_placeRows (s : Spacing α) (boxes : List (Box α)) (top : α) (ns : List Nat)
    (index : Nat) :
    (row? (placeRows s boxes top ns) index).map Row.y =
      (bands (rowHeight boxes) s.rowGap top ns).get? index := by
  induction ns generalizing top with
  | nil => rfl
  | cons n ns ih =>
    rw [placeRows, bands, Table.get?, ← ih]
    unfold row?
    rw [List.find?_cons]
    split <;> simp_all

end

section

variable {extent : Nat → ℚ} (hextent : ∀ n, 0 ≤ extent n) {gap : ℚ} (hgap : 0 < gap)
include hextent hgap

/-- No band has its centre before the start. -/
theorem le_of_mem_bands {start : ℚ} {ns : List Nat} {p : Nat × ℚ}
    (hp : p ∈ bands extent gap start ns) : start ≤ p.2 := by
  induction ns generalizing start with
  | nil => exact absurd hp List.not_mem_nil
  | cons n ns ih =>
    have hn := hextent n
    rcases List.mem_cons.mp hp with rfl | hp
    · have hhalf : 0 ≤ extent n / 2 := div_nonneg hn (by norm_num)
      exact le_add_of_nonneg_right hhalf
    · have hnext : start + (extent n + gap) ≤ p.2 := ih hp
      linarith

/-- Every band has its centre behind that of the one before. -/
theorem bands_pairwise (start : ℚ) (ns : List Nat) :
    (bands extent gap start ns).Pairwise fun p q => p.2 < q.2 := by
  induction ns generalizing start with
  | nil => exact List.Pairwise.nil
  | cons n ns ih =>
    refine List.pairwise_cons.mpr ⟨fun q hq => ?_, ih _⟩
    have hn := hextent n
    have hnext : start + (extent n + gap) ≤ q.2 := le_of_mem_bands hextent hgap hq
    have hself : start + half (extent n) = start + extent n / 2 := rfl
    dsimp only
    rw [hself]
    linarith

/-- Different bands have different centres. -/
theorem getD_bands_inj (start : ℚ) {ns : List Nat} {i j : Nat} (hi : i ∈ ns) (hj : j ∈ ns)
    (fallback : ℚ) :
    ((bands extent gap start ns).get? i).getD fallback =
      ((bands extent gap start ns).get? j).getD fallback ↔ i = j := by
  refine ⟨fun heq => ?_, fun heq => heq ▸ rfl⟩
  have hcentre : ∀ k ∈ ns, ∃ x, (bands extent gap start ns).get? k = some x := fun k hk =>
    Option.isSome_iff_exists.mp (Table.has_iff.mpr ((keys_bands extent gap start ns).symm ▸ hk))
  obtain ⟨x, hx⟩ := hcentre i hi
  obtain ⟨y, hy⟩ := hcentre j hj
  rw [hx, hy, Option.getD_some, Option.getD_some] at heq
  have hnodup : ((bands extent gap start ns).map Prod.snd).Nodup :=
    List.pairwise_map.mpr ((bands_pairwise hextent hgap start ns).imp ne_of_lt)
  have hsame := List.inj_on_of_nodup_map hnodup (Table.mem_of_get? hx) (Table.mem_of_get? hy) heq
  exact (Prod.mk.inj hsame).1

end

/-! ## Centres -/

/-- Folding a greater value in makes nothing smaller. -/
theorem le_foldl_larger {β : Type} (read : β → ℚ) (xs : List β) (x : ℚ) :
    x ≤ xs.foldl (fun x b => Scalar.larger x (read b)) x := by
  induction xs generalizing x with
  | nil => exact le_refl x
  | cons b xs ih => exact (le_max_left x (read b)).trans (ih _)

/-- Two boxes have the same centre exactly if they share their column and their row. -/
theorem centre_eq_iff {s : Spacing ℚ} (hcolumn : 0 < s.columnGap) (hrow : 0 < s.rowGap)
    (hwidth : 0 ≤ s.minColumnWidth) {boxes : List (Box ℚ)} {b c : Box ℚ} (hb : b ∈ boxes)
    (hc : c ∈ boxes) :
    let columns := placeColumns s boxes s.sideMargin (increasing (boxes.map Box.column))
    let rows := placeRows s boxes s.topMargin (increasing (boxes.map Box.row))
    centre columns rows b = centre columns rows c ↔ b.column = c.column ∧ b.row = c.row := by
  intro columns rows
  have hcolumns : ∀ n, 0 ≤ columnWidth s (membersOf boxes n) := fun n =>
    hwidth.trans (le_max_right _ _)
  have hrows : ∀ n, 0 ≤ rowHeight boxes n := fun n => le_foldl_larger _ _ _
  have hmem : ∀ (read : Box ℚ → Nat) {x : Box ℚ}, x ∈ boxes →
      read x ∈ increasing (boxes.map read) := fun read _ hx =>
    mem_increasing.mpr (List.mem_map_of_mem hx)
  have hx := getD_bands_inj hcolumns hcolumn s.sideMargin (hmem Box.column hb) (hmem Box.column hc)
    (Scalar.ofNat 0)
  have hy := getD_bands_inj hrows hrow s.topMargin (hmem Box.row hb) (hmem Box.row hc)
    (Scalar.ofNat 0)
  rw [← column?_placeColumns, ← column?_placeColumns] at hx
  rw [← row?_placeRows, ← row?_placeRows] at hy
  rw [← hx, ← hy, centre, centre, Point.mk.injEq]

section

variable {α : Type} [Scalar α] (s : Spacing α) {boxes : List (Box α)}
  (hids : (boxes.map Box.id).Nodup)
include hids

/-- The positions of boxes with different ids are their centres, in their order. -/
theorem positions_ofBoxes :
    (ofBoxes s boxes).positions = boxes.map fun b =>
      (b.id, centre (placeColumns s boxes s.sideMargin (increasing (boxes.map Box.column)))
        (placeRows s boxes s.topMargin (increasing (boxes.map Box.row))) b) := by
  refine Table.ofPairs_of_nodup ?_
  rw [List.map_map]
  exact hids

/-- There is one position for each box, in their order. -/
theorem keys_positions : (ofBoxes s boxes).positions.keys = boxes.map Box.id := by
  rw [positions_ofBoxes s hids]
  exact List.map_map

/-- Boxes with different ids stand where they should. -/
theorem get?_positions {b : Box α} (hb : b ∈ boxes) :
    (ofBoxes s boxes).positions.get? b.id =
      some (centre (placeColumns s boxes s.sideMargin (increasing (boxes.map Box.column)))
        (placeRows s boxes s.topMargin (increasing (boxes.map Box.row))) b) := by
  refine (Table.get?_eq_some_iff ((keys_positions s hids).symm ▸ hids)).mpr ?_
  rw [positions_ofBoxes s hids]
  exact List.mem_map_of_mem hb

end

end Arrangement

/-! ## Nodes -/

/-- The row of a node of a diagram. -/
def Diagram.row (d : Diagram) (n : Node) : Nat :=
  Layout.rowOf d.depths (d.nodes.find? (·.kind = .start)) n

section

variable {α : Type}

/-- The box of a node of some size. -/
def Diagram.box (d : Diagram) (size : Node → Size α) (n : Node) : Box α where
  id := n.id
  column := n.column
  depth := Layout.depthOf d.depths n.id
  row := d.row n
  size := size n

/-- The boxes of a diagram have the ids of its nodes. -/
theorem Diagram.ids_boxes (d : Diagram) (size : Node → Size α) :
    (d.nodes.map (d.box size)).map Box.id = d.nodes.map Node.id :=
  List.map_map

/-- A loop all of whose turns succeed does. -/
theorem mapM_eq_ok {ε β γ : Type} {turn : β → Except ε γ} {result : β → γ} {xs : List β}
    (h : ∀ x ∈ xs, turn x = .ok (result x)) : xs.mapM turn = .ok (xs.map result) := by
  induction xs with
  | nil => rfl
  | cons x xs ih =>
    rw [List.mapM_cons, h x List.mem_cons_self, ih fun y hy => h y (List.mem_cons_of_mem x hy)]
    rfl

/-- When every node has a size, boxes are made of all nodes. -/
theorem Layout.boxes_eq {d : Diagram} {sizeOf : Node → Option (Size α)} {size : Node → Size α}
    (h : ∀ n ∈ d.nodes, sizeOf n = some (size n)) :
    Layout.boxes sizeOf d = .ok (d.nodes.map (d.box size)) := by
  refine mapM_eq_ok fun n hn => ?_
  rw [h n hn]
  rfl

variable [Scalar α]

/-- Where a node stands. -/
def Diagram.place (d : Diagram) (s : Spacing α) (size : Node → Size α) (n : Node) : Point α :=
  let boxes := d.nodes.map (d.box size)
  Arrangement.centre
    (Arrangement.placeColumns s boxes s.sideMargin (Arrangement.increasing (boxes.map Box.column)))
    (Arrangement.placeRows s boxes s.topMargin (Arrangement.increasing (boxes.map Box.row)))
    (d.box size n)

/-- The layout of a diagram whose nodes have given sizes. -/
def Diagram.layout (d : Diagram) (s : Spacing α) (size : Node → Size α) : Layout α where
  arrangement := .ofBoxes s (d.nodes.map (d.box size))
  depths := d.depths

/-- When every node has a size, laying out does not fail. -/
theorem Layout.ofDiagram_eq (s : Spacing α) {d : Diagram} {sizeOf : Node → Option (Size α)}
    {size : Node → Size α} (h : ∀ n ∈ d.nodes, sizeOf n = some (size n)) :
    Layout.ofDiagram s sizeOf d = .ok (d.layout s size) := by
  rw [Layout.ofDiagram, Layout.boxes_eq h]
  rfl

/-- Nodes with different ids have the positions of their places. -/
theorem Diagram.get?_positions {d : Diagram} (hd : (d.nodes.map Node.id).Nodup) (s : Spacing α)
    (size : Node → Size α) {n : Node} (hn : n ∈ d.nodes) :
    (d.layout s size).arrangement.positions.get? n.id = some (d.place s size n) := by
  have hbox : d.box size n ∈ d.nodes.map (d.box size) := List.mem_map_of_mem hn
  exact Arrangement.get?_positions s (d.ids_boxes size ▸ hd) hbox

/-- Positions stand in the order of the nodes. -/
theorem Diagram.ids_positions {d : Diagram} (hd : (d.nodes.map Node.id).Nodup) (s : Spacing α)
    (size : Node → Size α) :
    (d.layout s size).arrangement.positions.map Prod.fst = d.nodes.map Node.id :=
  (Arrangement.keys_positions s (d.ids_boxes size ▸ hd)).trans (d.ids_boxes size)

/-- A diagram whose nodes have different ids, and sizes, is laid out, with every node in its
place. -/
theorem Diagram.exists_layout {d : Diagram} (hd : (d.nodes.map Node.id).Nodup) (s : Spacing α)
    {sizeOf : Node → Option (Size α)} (size : Node → Size α)
    (h : ∀ n ∈ d.nodes, sizeOf n = some (size n)) :
    ∃ layout, Layout.ofDiagram s sizeOf d = .ok layout ∧
      ∀ n ∈ d.nodes, layout.arrangement.positions.get? n.id = some (d.place s size n) :=
  ⟨_, Layout.ofDiagram_eq s h, fun _ hn => Diagram.get?_positions hd s size hn⟩

/-- Nodes that share their column and their row stand in one place. -/
theorem Diagram.place_congr {d : Diagram} (s : Spacing α) (size : Node → Size α) {m n : Node}
    (hcolumn : m.column = n.column) (hrow : d.row m = d.row n) :
    d.place s size m = d.place s size n := by
  unfold Diagram.place Arrangement.centre Diagram.box
  dsimp only
  rw [hcolumn, hrow]

end

/-- Over exact lengths, with gaps between columns and rows, only such nodes stand in one place. -/
theorem Diagram.place_eq_iff {d : Diagram} {s : Spacing ℚ} (hcolumn : 0 < s.columnGap)
    (hrow : 0 < s.rowGap) (hwidth : 0 ≤ s.minColumnWidth) (size : Node → Size ℚ) {m n : Node}
    (hm : m ∈ d.nodes) (hn : n ∈ d.nodes) :
    d.place s size m = d.place s size n ↔ m.column = n.column ∧ d.row m = d.row n :=
  Arrangement.centre_eq_iff hcolumn hrow hwidth (List.mem_map_of_mem (f := d.box size) hm)
    (List.mem_map_of_mem (f := d.box size) hn)

/-- What settings lay out is the framed diagram. -/
theorem Settings.layOut_eq {settings : Settings} {shaper : Shaper} {d framed : Diagram}
    {layout : Layout Float32} (h : settings.layOut shaper d = .ok (framed, layout)) :
    framed = d.framed (settings.text.measure shaper) ∧
      Layout.ofDiagram settings.spacing Layout.frameSize framed = .ok layout := by
  unfold Settings.layOut at h
  split at h
  · exact nomatch h
  · dsimp only at h
    split at h
    · exact nomatch h
    · rename_i hlayout
      obtain ⟨rfl, rfl⟩ := Prod.mk.inj (Except.ok.inj h)
      exact ⟨rfl, hlayout⟩

/-- Every node of a framed diagram has a size. -/
theorem Diagram.frameSize_framed {d : Diagram} {measure : Measure} {n : Node}
    (hn : n ∈ (d.framed measure).nodes) :
    Layout.frameSize n = some ((Layout.frameSize n).getD ⟨0, 0⟩) := by
  obtain ⟨_, -, rfl⟩ := List.mem_map.mp hn
  rfl

/-- Framing keeps the ids of nodes. -/
theorem Diagram.ids_framed (d : Diagram) (measure : Measure) :
    (d.framed measure).nodes.map Node.id = d.nodes.map Node.id :=
  List.map_map

/-- The row of anything but parameters is its depth. -/
theorem Diagram.row_eq_depth {d : Diagram} {n : Node} (h : n.kind ≠ .parameters) :
    d.row n = (d.depths.get? n.id).getD 0 := by
  unfold Diagram.row Layout.rowOf
  split
  · rename_i hkind _
    exact absurd hkind h
  · rfl

/-- A path of some weight takes a settled node to another row. -/
theorem Diagram.row_ne {d : Diagram} (hd : (d.nodes.map Node.id).Nodup) {m n : Node}
    (hm : m.kind ≠ .parameters) (hn : n.kind ≠ .parameters)
    (hsettled : Layering.Settled d.Leads n.id) {w : Nat} (hw : 0 < w)
    (path : Layering.Path d.Leads m.id n.id w) : d.row m ≠ d.row n := by
  obtain ⟨-, hlayering⟩ := d.depths_eq hd
  have hdepths := hlayering.add_le hsettled path
  rw [Diagram.row_eq_depth hm, Diagram.row_eq_depth hn]
  omega

/-! ## Built diagrams -/

/-- Two nodes of a built diagram that share their column and their row are drawn on top of each
other. Read over exact lengths no others are, whatever their sizes; so a path of some weight that
leads to a settled node keeps it apart from the start of the path. -/
theorem positions_eq_iff (document : List Statement) (diagram : Diagram)
    (h : (Diagram.build document).1 = some diagram) :
    (∀ (settings : Settings) (shaper : Shaper) (framed : Diagram) (layout : Layout Float32),
      settings.layOut shaper diagram = .ok (framed, layout) →
      ∀ m ∈ framed.nodes, ∀ n ∈ framed.nodes, m.column = n.column → framed.row m = framed.row n →
        ∃ p, layout.arrangement.positions.get? m.id = some p ∧
          layout.arrangement.positions.get? n.id = some p) ∧
    ∀ s : Spacing ℚ, 0 < s.columnGap → 0 < s.rowGap → 0 ≤ s.minColumnWidth →
      ∀ size : Node → Size ℚ,
      ∃ layout, Layout.ofDiagram s (fun n => some (size n)) diagram = .ok layout ∧
        ∀ m ∈ diagram.nodes, ∀ n ∈ diagram.nodes, ∃ p q,
          layout.arrangement.positions.get? m.id = some p ∧
            layout.arrangement.positions.get? n.id = some q ∧
            (p = q ↔ m.column = n.column ∧ diagram.row m = diagram.row n) ∧
            (m.kind ≠ .parameters → n.kind ≠ .parameters → Layering.Settled diagram.Leads n.id →
              ∀ w, 0 < w → Layering.Path diagram.Leads m.id n.id w → p ≠ q) := by
  obtain ⟨d, hlast, rfl, -⟩ := build_eq_getLast? document diagram _ (Prod.ext h rfl)
  have hd := (closed_of_mem_contexts (List.mem_of_getLast? hlast)).registry.nodup
  constructor
  · intro settings shaper framed layout hlayout m hm n hn hcolumn hrow
    obtain ⟨rfl, hlayout⟩ := Settings.layOut_eq hlayout
    obtain ⟨_, hfound, hplace⟩ := Diagram.exists_layout ((d.diagram.ids_framed _).symm ▸ hd)
      settings.spacing _ fun n hn => Diagram.frameSize_framed hn
    obtain rfl := Except.ok.inj (hlayout.symm.trans hfound)
    exact ⟨_, hplace m hm, Diagram.place_congr settings.spacing _ hcolumn hrow ▸ hplace n hn⟩
  · intro s hcolumn hrow hwidth size
    obtain ⟨layout, hlayout, hplace⟩ := d.diagram.exists_layout hd s size fun _ _ => rfl
    refine ⟨layout, hlayout, fun m hm n hn => ⟨_, _, hplace m hm, hplace n hn, ?_, ?_⟩⟩
    · exact Diagram.place_eq_iff hcolumn hrow hwidth size hm hn
    · intro hkm hkn hsettled w hw path hsame
      exact Diagram.row_ne hd hkm hkn hsettled hw path
        ((Diagram.place_eq_iff hcolumn hrow hwidth size hm hn).mp hsame).2

/-- A question that leads to the end for both answers, and an icon behind it. -/
def unreachedSource : String :=
  "drakon \"d\" \x7b question \"q\" \x7b\x7d action \"a\" \x7b\x7d \x7d"

/-- The spacing that is the default, in exact numbers. -/
def Spacing.exact : Spacing ℚ where
  columnGap := 140
  columnPadding := 80
  minColumnWidth := 260
  minNodeWidth := 220
  topMargin := 140
  bottomMargin := 120
  sideMargin := 160
  rowGap := 90
  minWidth := 640
  minHeight := 600

/-- No edge leads to the icon behind the question, so it stands where the start does. -/
theorem positions_eq_iff_unreached :
    ∃ diagram layout p, (Diagram.build (Document.read unreachedSource).statements).1 = some diagram ∧
      Layout.ofDiagram .exact (fun _ => some ⟨220, 60⟩) diagram = .ok layout ∧
      layout.arrangement.positions.get? "d@start" = some p ∧
      layout.arrangement.positions.get? "a" = some p := by
  have hbuilt : (Diagram.build (Document.read unreachedSource).statements).1.any (fun diagram =>
      diagram.nodes.any fun m => m.id = "d@start" ∧ diagram.nodes.any fun n =>
        n.id = "a" ∧ m.column = n.column ∧ diagram.row m = diagram.row n) = true := by decide +kernel
  obtain ⟨diagram, hdiagram, hbuilt⟩ := (Option.any_eq_true _ _).mp hbuilt
  obtain ⟨m, hm, hbuilt⟩ := List.any_eq_true.mp hbuilt
  obtain ⟨hmid, hbuilt⟩ := of_decide_eq_true hbuilt
  obtain ⟨n, hn, hbuilt⟩ := List.any_eq_true.mp hbuilt
  obtain ⟨hnid, hcell⟩ := of_decide_eq_true hbuilt
  obtain ⟨layout, hlayout, hpositions⟩ := (positions_eq_iff _ diagram hdiagram).2 .exact (by decide)
    (by decide) (by decide) fun _ => ⟨220, 60⟩
  obtain ⟨p, q, hp, hq, hiff, -⟩ := hpositions m hm n hn
  rw [hmid] at hp
  rw [hnid, ← hiff.mpr hcell] at hq
  exact ⟨diagram, layout, p, hdiagram, hlayout, hp, hq⟩

/-- Whether two nodes of a drawing have the same position. -/
def Drawing.overlap (d : Drawing) (m n : Node) : Bool :=
  match d.layout.arrangement.positions.get? m.id, d.layout.arrangement.positions.get? n.id with
  | some p, some q => p.x == q.x && p.y == q.y
  | _, _ => false

/-- What is there when errors are forgotten was no error. -/
theorem eq_ok_of_toOption {ε α : Type} {e : Except ε α} {a : α} (h : e.toOption = some a) :
    e = .ok a := by
  cases e with
  | error _ => exact nomatch h
  | ok _ => exact congrArg _ (Option.some.inj h)

/-- Two nodes can be drawn on top of each other, with the default spacing and characters of a fixed
width. -/
theorem exists_overlap :
    ¬ ∀ source charWidth drawing, TextSettings.isUsable charWidth = true →
      (Document.read source).hasErrors = false →
      Drawing.ofSource { text := { ruler := .fixed, charWidth } } false source = .ok drawing →
      ∀ m ∈ drawing.diagram.nodes, ∀ n ∈ drawing.diagram.nodes, m.id ≠ n.id →
        drawing.overlap m n = false := by
  intro hclaim
  obtain ⟨hwidth, herrors, hdrawn⟩ : TextSettings.isUsable 8 = true ∧
      (Document.read unreachedSource).hasErrors = false ∧
      (Drawing.ofSource { text := { ruler := .fixed, charWidth := 8 } } false
        unreachedSource).toOption.any (fun drawing => drawing.diagram.nodes.any fun m =>
          drawing.diagram.nodes.any fun n => m.id ≠ n.id ∧ drawing.overlap m n) = true := by
    decide +kernel
  obtain ⟨drawing, hdrawing, hdrawn⟩ := (Option.any_eq_true _ _).mp hdrawn
  obtain ⟨m, hm, hdrawn⟩ := List.any_eq_true.mp hdrawn
  obtain ⟨n, hn, hdrawn⟩ := List.any_eq_true.mp hdrawn
  obtain ⟨hne, hsame⟩ := of_decide_eq_true hdrawn
  have hnone := hclaim unreachedSource 8 drawing hwidth herrors (eq_ok_of_toOption hdrawing) m hm n
    hn hne
  exact Bool.false_ne_true (hnone.symm.trans hsame)

end Flowchart
