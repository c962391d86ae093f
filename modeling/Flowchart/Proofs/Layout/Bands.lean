import Flowchart.Proofs.Layout.Consistency

/-!
# Bands of the canvas

Every column takes a band of the canvas from top to bottom, every row one from left to right. Read
over exact numbers, bands stand one behind the other with exactly the gap between them, and a band is
as wide as its widest member needs. `layout_bands` puts this together: a node's box lies in the band
of its column and in that of its row, boxes of different columns or rows do not overlap, and the
canvas keeps its margins around all of them.

Columns and rows are made by the same running sum, so both are read as a `stack` of bands and what
is said of stacks is said once.
-/

namespace Flowchart

/-- A stretch of the canvas along one of its axes. -/
structure Band where
  /-- The number of the band. -/
  index : Nat
  /-- Where it starts. -/
  low : ℚ
  /-- Where it ends. -/
  high : ℚ

/-- The band of some extent around a centre. -/
def Band.around (index : Nat) (centre extent : ℚ) : Band :=
  ⟨index, centre - extent / 2, centre + extent / 2⟩

/-- A band whose centre is half its extent behind some start begins there. -/
theorem Band.around_add_half (index : Nat) (start extent : ℚ) :
    Band.around index (start + extent / 2) extent = ⟨index, start, start + extent⟩ := by
  rw [Band.around, add_sub_cancel_right, add_assoc, add_halves]

/-- What a column takes of the width of the canvas. -/
def Column.band (c : Column ℚ) : Band := .around c.index c.x c.width

/-- What a row takes of the height of the canvas. -/
def Row.band (r : Row ℚ) : Band := .around r.index r.y r.height

/-- Two boxes overlap if some inner point of one is an inner point of the other. -/
def Bounds.Overlaps (a b : Bounds ℚ) : Prop :=
  a.minX < b.maxX ∧ b.minX < a.maxX ∧ a.minY < b.maxY ∧ b.minY < a.maxY

namespace Arrangement

/-! ## Stacks of bands -/

section

variable (extent : Nat → ℚ) (gap : ℚ)

/-- Bands of some extents that stand one behind the other, with a gap after each. -/
def stack (start : ℚ) : List Nat → List Band
  | [] => []
  | index :: rest =>
    ⟨index, start, start + extent index⟩ :: stack (start + (extent index + gap)) rest

variable {extent gap} {start : ℚ} {ns : List Nat}

/-- There is one band for each number, in their order. -/
theorem indices_stack : (stack extent gap start ns).map Band.index = ns := by
  induction ns generalizing start with
  | nil => rfl
  | cons n ns ih => exact congrArg (n :: ·) ih

/-- Between two bands there is nothing but the gap. -/
theorem isChain_stack :
    (stack extent gap start ns).IsChain fun a b => a.high + gap = b.low := by
  induction ns generalizing start with
  | nil => exact List.isChain_nil
  | cons n ns ih =>
    refine List.isChain_cons.mpr ⟨fun b hb => ?_, ih⟩
    cases ns with
    | nil => exact nomatch hb
    | cons m ns =>
      obtain rfl := Option.some.inj hb
      exact add_assoc start (extent n) gap

variable (hextent : ∀ n, 0 ≤ extent n) (hgap : 0 ≤ gap)
include hextent hgap

/-- No band begins before the first one. -/
theorem le_low_of_mem_stack {b : Band} (hb : b ∈ stack extent gap start ns) : start ≤ b.low := by
  induction ns generalizing start with
  | nil => exact absurd hb List.not_mem_nil
  | cons n ns ih =>
    rcases List.mem_cons.mp hb with rfl | hb
    · exact le_refl start
    · have hn := hextent n
      calc start ≤ start + (extent n + gap) := by linarith
        _ ≤ b.low := ih hb

/-- A band with a smaller number ends a gap before one with a greater number. -/
theorem add_gap_le_of_lt (hns : ns.Pairwise (· < ·)) {a b : Band}
    (ha : a ∈ stack extent gap start ns) (hb : b ∈ stack extent gap start ns)
    (hlt : a.index < b.index) : a.high + gap ≤ b.low := by
  induction ns generalizing start with
  | nil => exact absurd ha List.not_mem_nil
  | cons n ns ih =>
    obtain ⟨hn, hns⟩ := List.pairwise_cons.mp hns
    -- The numbers of the bands behind the first one are greater than its own.
    have hlater : ∀ c ∈ stack extent gap (start + (extent n + gap)) ns, n < c.index := by
      intro c hc
      have hindex : c.index ∈ (stack extent gap (start + (extent n + gap)) ns).map Band.index :=
        List.mem_map_of_mem hc
      rw [indices_stack] at hindex
      exact hn c.index hindex
    rcases List.mem_cons.mp ha with rfl | ha <;> rcases List.mem_cons.mp hb with rfl | hb
    · exact absurd hlt (lt_irrefl n)
    · show start + extent n + gap ≤ b.low
      rw [add_assoc]
      exact le_low_of_mem_stack hextent hgap hb
    · exact absurd hlt (hlater a ha).not_gt
    · exact ih hns ha hb

end

/-! ## Columns and rows as stacks -/

section

variable (s : Spacing ℚ) (boxes : List (Box ℚ))

/-- The bands of columns are a stack. -/
theorem bands_placeColumns (left : ℚ) (ns : List Nat) :
    (placeColumns s boxes left ns).map Column.band =
      stack (fun n => columnWidth s (membersOf boxes n)) s.columnGap left ns := by
  induction ns generalizing left with
  | nil => rfl
  | cons n ns ih =>
    exact congrArg₂ List.cons (Band.around_add_half n left (columnWidth s (membersOf boxes n))) (ih _)

/-- The bands of rows are a stack. -/
theorem bands_placeRows (top : ℚ) (ns : List Nat) :
    (placeRows s boxes top ns).map Row.band = stack (rowHeight boxes) s.rowGap top ns := by
  induction ns generalizing top with
  | nil => rfl
  | cons n ns ih =>
    exact congrArg₂ List.cons (Band.around_add_half n top (rowHeight boxes n)) (ih _)

/-- A row is as high as its boxes need. -/
theorem height_of_mem_placeRows {top : ℚ} {ns : List Nat} {row : Row ℚ}
    (h : row ∈ placeRows s boxes top ns) : row.height = rowHeight boxes row.index := by
  induction ns generalizing top with
  | nil => exact absurd h List.not_mem_nil
  | cons n ns ih =>
    rcases List.mem_cons.mp h with rfl | h
    · rfl
    · exact ih h

end

/-! ## Members fit -/

/-- Folding greater values in gives at least each of them. -/
theorem le_foldl_of_mem {β : Type} (read : β → ℚ) {xs : List β} {x : ℚ} {b : β} (hb : b ∈ xs) :
    read b ≤ xs.foldl (fun x b => Scalar.larger x (read b)) x := by
  induction xs generalizing x with
  | nil => exact absurd hb List.not_mem_nil
  | cons c xs ih =>
    rcases List.mem_cons.mp hb with rfl | hb
    · exact (le_max_right x (read b)).trans (le_foldl_larger read xs _)
    · exact ih hb

section

variable {s : Spacing ℚ} {boxes : List (Box ℚ)} {b : Box ℚ} (hb : b ∈ boxes)
include hb

/-- A column is as wide as any of its members. -/
theorem width_le_columnWidth (hpadding : 0 ≤ s.columnPadding) :
    b.size.width ≤ columnWidth s (membersOf boxes b.column) := by
  have hmember : b ∈ membersOf boxes b.column := mem_membersOf.mpr ⟨hb, rfl⟩
  have hwidest := le_foldl_of_mem (fun b : Box ℚ => b.size.width) (x := s.minNodeWidth) hmember
  calc b.size.width ≤ _ := hwidest
    _ ≤ _ + s.columnPadding := le_add_of_nonneg_right hpadding
    _ ≤ columnWidth s (membersOf boxes b.column) := le_max_left _ _

/-- A row is as high as any box in it. -/
theorem height_le_rowHeight : b.size.height ≤ rowHeight boxes b.row :=
  le_foldl_of_mem (fun b : Box ℚ => b.size.height)
    (List.mem_filter.mpr ⟨hb, decide_eq_true rfl⟩)

end

/-! ## The canvas -/

/-- The cell of a box whose column and row are found. -/
theorem cell?_eq {columns : List (Column ℚ)} {rows : List (Row ℚ)} {b : Box ℚ} {column : Column ℚ}
    {row : Row ℚ} (hcolumn : column? columns b.column = some column)
    (hrow : row? rows b.row = some row) :
    cell? columns rows b = some (Point.bounds ⟨column.x, row.y⟩ ⟨column.width, row.height⟩) := by
  rw [cell?, hcolumn, hrow]

/-- Merged bounds reach as far as each of those that are merged. -/
theorem le_foldl_merge {bounds c : Bounds ℚ} {cells : List (Bounds ℚ)}
    (hc : c = bounds ∨ c ∈ cells) :
    c.maxX ≤ (cells.foldl Bounds.merge bounds).maxX ∧
      c.maxY ≤ (cells.foldl Bounds.merge bounds).maxY := by
  have hmax : ∀ (bounds : Bounds ℚ) (cells : List (Bounds ℚ)),
      (cells.foldl Bounds.merge bounds).maxX =
          cells.foldl (fun x c => Scalar.larger x c.maxX) bounds.maxX ∧
        (cells.foldl Bounds.merge bounds).maxY =
          cells.foldl (fun y c => Scalar.larger y c.maxY) bounds.maxY := by
    intro bounds cells
    induction cells generalizing bounds with
    | nil => exact ⟨rfl, rfl⟩
    | cons c cells ih => exact ih (bounds.merge c)
  obtain ⟨hx, hy⟩ := hmax bounds cells
  rw [hx, hy]
  rcases hc with rfl | hc
  · exact ⟨le_foldl_larger _ _ _, le_foldl_larger _ _ _⟩
  · exact ⟨le_foldl_of_mem _ hc, le_foldl_of_mem _ hc⟩

/-- The content of the canvas reaches as far as each cell. -/
theorem le_contentEnd (s : Spacing ℚ) {cells : List (Bounds ℚ)} {c : Bounds ℚ} (hc : c ∈ cells) :
    c.maxX ≤ (contentEnd s cells).x ∧ c.maxY ≤ (contentEnd s cells).y := by
  cases cells with
  | nil => exact absurd hc List.not_mem_nil
  | cons bounds cells => exact le_foldl_merge (List.mem_cons.mp hc)

end Arrangement

/-! ## Nodes in their bands -/

/-- The rows of the layout of a diagram. -/
def Diagram.rows (d : Diagram) (s : Spacing ℚ) (size : Node → Size ℚ) : List (Row ℚ) :=
  let boxes := d.nodes.map (d.box size)
  Arrangement.placeRows s boxes s.topMargin (Arrangement.increasing (boxes.map Box.row))

/-- The box that a node takes on the canvas. -/
def Layout.boxOf (l : Layout ℚ) (size : Node → Size ℚ) (n : Node) : Option (Bounds ℚ) :=
  (l.arrangement.positions.get? n.id).map (·.bounds (size n))

section

variable {d : Diagram} (s : Spacing ℚ) (size : Node → Size ℚ)

/-- Rows have the numbers in use, in their order. -/
theorem Diagram.indices_rows :
    (d.rows s size).map Row.index = Arrangement.increasing (d.nodes.map d.row) := by
  have hrow : (d.nodes.map (d.box size)).map Box.row = d.nodes.map d.row := List.map_map
  have hindex : (d.rows s size).map Row.index = ((d.rows s size).map Row.band).map Band.index := by
    rw [List.map_map]
    rfl
  rw [hindex, Diagram.rows, Arrangement.bands_placeRows, Arrangement.indices_stack, hrow]

variable {s size}

/-- The search for the row of a node finds the one with its number. -/
theorem Diagram.row?_eq {n : Node} {row : Row ℚ} (hr : row ∈ d.rows s size)
    (hrow : row.index = d.row n) : Arrangement.row? (d.rows s size) (d.row n) = some row := by
  have hnodup : ((d.rows s size).map Row.index).Nodup := by
    rw [d.indices_rows]
    exact (Arrangement.pairwise_increasing _).imp Nat.ne_of_lt
  rw [← hrow]
  exact Arrangement.find?_of_mem hnodup hr

/-- The canvas keeps its margins behind the cell of a node. -/
theorem Diagram.high_add_margin_le {n : Node} (hn : n ∈ d.nodes) {column : Column ℚ} {row : Row ℚ}
    (hc : column ∈ (d.layout s size).arrangement.columns) (hcolumn : column.index = n.column)
    (hr : row ∈ d.rows s size) (hrow : row.index = d.row n) :
    column.band.high + s.sideMargin ≤ (d.layout s size).arrangement.size.width ∧
      row.band.high + s.bottomMargin ≤ (d.layout s size).arrangement.size.height := by
  let boxes := d.nodes.map (d.box size)
  let cells := boxes.filterMap
    (Arrangement.cell? (d.layout s size).arrangement.columns (d.rows s size))
  have hcell : Point.bounds ⟨column.x, row.y⟩ ⟨column.width, row.height⟩ ∈ cells := by
    refine List.mem_filterMap.mpr ⟨d.box size n, List.mem_map_of_mem hn, ?_⟩
    exact Arrangement.cell?_eq (Diagram.column?_eq hc hcolumn) (Diagram.row?_eq hr hrow)
  obtain ⟨hx, hy⟩ := Arrangement.le_contentEnd s hcell
  have hright : column.band.high ≤ (Arrangement.contentEnd s cells).x := hx
  have hbottom : row.band.high ≤ (Arrangement.contentEnd s cells).y := hy
  constructor
  · calc column.band.high + s.sideMargin ≤ (Arrangement.contentEnd s cells).x + s.sideMargin := by
          linarith
      _ ≤ (d.layout s size).arrangement.size.width := le_max_left _ _
  · calc row.band.high + s.bottomMargin ≤ (Arrangement.contentEnd s cells).y + s.bottomMargin := by
          linarith
      _ ≤ (d.layout s size).arrangement.size.height := le_max_left _ _

variable (s size) {n : Node} (hn : n ∈ d.nodes)
include hn

/-- A node stands in the middle of a column that is wide enough for it. -/
theorem Diagram.exists_column (hpadding : 0 ≤ s.columnPadding) :
    ∃ column ∈ (d.layout s size).arrangement.columns, column.index = n.column ∧
      (d.place s size n).x = column.x ∧ (size n).width ≤ column.width := by
  have hused : n.column ∈ (d.layout s size).arrangement.columns.map Column.index := by
    rw [d.indices_columns, Arrangement.mem_increasing]
    exact List.mem_map_of_mem hn
  obtain ⟨column, hc, hcolumn⟩ := List.mem_map.mp hused
  have hbox : d.box size n ∈ d.nodes.map (d.box size) := List.mem_map_of_mem hn
  have hwidth := (Arrangement.eq_of_mem_placeColumns s (d.nodes.map (d.box size)) hc).1
  have hfits := Arrangement.width_le_columnWidth hbox hpadding
  have hsame : (d.box size n).column = column.index := hcolumn.symm
  rw [hsame, ← hwidth] at hfits
  exact ⟨column, hc, hcolumn, Diagram.place_x hc hcolumn, hfits⟩

/-- A node stands in the middle of a row that is high enough for it. -/
theorem Diagram.exists_row :
    ∃ row ∈ d.rows s size, row.index = d.row n ∧ (d.place s size n).y = row.y ∧
      (size n).height ≤ row.height := by
  have hused : d.row n ∈ (d.rows s size).map Row.index := by
    rw [d.indices_rows, Arrangement.mem_increasing]
    exact List.mem_map_of_mem hn
  obtain ⟨row, hr, hrow⟩ := List.mem_map.mp hused
  have hbox : d.box size n ∈ d.nodes.map (d.box size) := List.mem_map_of_mem hn
  have hheight := Arrangement.height_of_mem_placeRows s (d.nodes.map (d.box size)) hr
  have hfits := Arrangement.height_le_rowHeight hbox
  have hsame : (d.box size n).row = row.index := hrow.symm
  rw [hsame, ← hheight] at hfits
  have hy : (d.place s size n).y = row.y := by
    show ((Arrangement.row? (d.rows s size) (d.row n)).map Row.y).getD _ = row.y
    rw [Diagram.row?_eq hr hrow, Option.map_some, Option.getD_some]
  exact ⟨row, hr, hrow, hy, hfits⟩

end

/-! ## Bands of a layout -/

/-- What the bands of a layout keep apart and hold. -/
structure Layout.Banded (l : Layout ℚ) (d : Diagram) (s : Spacing ℚ) (size : Node → Size ℚ) :
    Prop where
  /-- Between two columns that follow each other there is exactly the gap. -/
  columns : (l.arrangement.columns.map Column.band).IsChain fun a b => a.high + s.columnGap = b.low
  /-- Between two rows that follow each other there is exactly the gap. -/
  rows : ((d.rows s size).map Row.band).IsChain fun a b => a.high + s.rowGap = b.low
  /-- There is a row for each number in use and for no other, in the order of the numbers. -/
  used : ((d.rows s size).map Row.index).Pairwise (· < ·) ∧
    ∀ index, index ∈ (d.rows s size).map Row.index ↔ ∃ n ∈ d.nodes, d.row n = index
  /-- A node's box lies in the bands of its column and its row and keeps the margins of the
  canvas. -/
  holds : ∀ n ∈ d.nodes, ∃ box, l.boxOf size n = some box ∧
    (∃ column ∈ l.arrangement.columns, column.index = n.column ∧
      column.band.low ≤ box.minX ∧ box.maxX ≤ column.band.high) ∧
    (∃ row ∈ d.rows s size, row.index = d.row n ∧
      row.band.low ≤ box.minY ∧ box.maxY ≤ row.band.high) ∧
    s.sideMargin ≤ box.minX ∧ box.maxX + s.sideMargin ≤ l.arrangement.size.width ∧
    s.topMargin ≤ box.minY ∧ box.maxY + s.bottomMargin ≤ l.arrangement.size.height
  /-- Boxes of different columns or rows have the gap between them and do not overlap. -/
  apart : ∀ m ∈ d.nodes, ∀ n ∈ d.nodes, ∀ a b, l.boxOf size m = some a → l.boxOf size n = some b →
    (m.column < n.column → a.maxX + s.columnGap ≤ b.minX) ∧
    (d.row m < d.row n → a.maxY + s.rowGap ≤ b.minY) ∧
    (m.column ≠ n.column ∨ d.row m ≠ d.row n → ¬ a.Overlaps b)

/-- A box around the centre of a band that is wide enough for it lies in the band. -/
theorem Band.low_le_of_around {index : Nat} {centre extent width : ℚ} (h : width ≤ extent) :
    (Band.around index centre extent).low ≤ centre - half width ∧
      centre + half width ≤ (Band.around index centre extent).high := by
  show centre - extent / 2 ≤ centre - width / 2 ∧ centre + width / 2 ≤ centre + extent / 2
  constructor <;> linarith

section

variable {d : Diagram} {s : Spacing ℚ} {size : Node → Size ℚ}

/-- The bands of columns are a stack that begins at the margin. -/
theorem Diagram.bands_columns (d : Diagram) (s : Spacing ℚ) (size : Node → Size ℚ) :
    (d.layout s size).arrangement.columns.map Column.band =
      Arrangement.stack (fun c => Arrangement.columnWidth s
        (Arrangement.membersOf (d.nodes.map (d.box size)) c)) s.columnGap s.sideMargin
        (Arrangement.increasing ((d.nodes.map (d.box size)).map Box.column)) :=
  Arrangement.bands_placeColumns s (d.nodes.map (d.box size)) s.sideMargin _

/-- The bands of rows are a stack that begins at the margin. -/
theorem Diagram.bands_rows (d : Diagram) (s : Spacing ℚ) (size : Node → Size ℚ) :
    (d.rows s size).map Row.band =
      Arrangement.stack (Arrangement.rowHeight (d.nodes.map (d.box size))) s.rowGap s.topMargin
        (Arrangement.increasing ((d.nodes.map (d.box size)).map Box.row)) :=
  Arrangement.bands_placeRows s (d.nodes.map (d.box size)) s.topMargin _

/-- Columns begin behind the margin, and one with a smaller number ends a gap before the next. -/
theorem Diagram.columns_apart (hgap : 0 ≤ s.columnGap) (hwidth : 0 ≤ s.minColumnWidth)
    {c : Column ℚ} (hc : c ∈ (d.layout s size).arrangement.columns) :
    s.sideMargin ≤ c.band.low ∧ ∀ e ∈ (d.layout s size).arrangement.columns, c.index < e.index →
      c.band.high + s.columnGap ≤ e.band.low := by
  have hextent : ∀ n, 0 ≤ Arrangement.columnWidth s
      (Arrangement.membersOf (d.nodes.map (d.box size)) n) := fun n =>
    hwidth.trans (le_max_right _ _)
  have hband : ∀ {c : Column ℚ}, c ∈ (d.layout s size).arrangement.columns → c.band ∈ _ :=
    fun hc => d.bands_columns s size ▸ List.mem_map_of_mem hc
  exact ⟨Arrangement.le_low_of_mem_stack hextent hgap (hband hc), fun e he =>
    Arrangement.add_gap_le_of_lt hextent hgap (Arrangement.pairwise_increasing _) (hband hc)
      (hband he)⟩

/-- Rows begin below the margin, and one with a smaller number ends a gap above the next. -/
theorem Diagram.rows_apart (hgap : 0 ≤ s.rowGap) {r : Row ℚ} (hr : r ∈ d.rows s size) :
    s.topMargin ≤ r.band.low ∧ ∀ e ∈ d.rows s size, r.index < e.index →
      r.band.high + s.rowGap ≤ e.band.low := by
  have hextent : ∀ n, 0 ≤ Arrangement.rowHeight (d.nodes.map (d.box size)) n := fun n =>
    Arrangement.le_foldl_larger _ _ _
  have hband : ∀ {r : Row ℚ}, r ∈ d.rows s size → r.band ∈ _ :=
    fun hr => d.bands_rows s size ▸ List.mem_map_of_mem hr
  exact ⟨Arrangement.le_low_of_mem_stack hextent hgap (hband hr), fun e he =>
    Arrangement.add_gap_le_of_lt hextent hgap (Arrangement.pairwise_increasing _) (hband hr)
      (hband he)⟩

/-- A node's box lies in the bands of its column and its row. -/
theorem Diagram.exists_bands (size : Node → Size ℚ) {n : Node} (hn : n ∈ d.nodes)
    (hpadding : 0 ≤ s.columnPadding) :
    ∃ column ∈ (d.layout s size).arrangement.columns, ∃ row ∈ d.rows s size,
      column.index = n.column ∧ row.index = d.row n ∧
      column.band.low ≤ ((d.place s size n).bounds (size n)).minX ∧
      ((d.place s size n).bounds (size n)).maxX ≤ column.band.high ∧
      row.band.low ≤ ((d.place s size n).bounds (size n)).minY ∧
      ((d.place s size n).bounds (size n)).maxY ≤ row.band.high := by
  obtain ⟨column, hc, hcolumn, hx, hwidth⟩ := Diagram.exists_column s size hn hpadding
  obtain ⟨row, hr, hrow, hy, hheight⟩ := Diagram.exists_row s size hn
  have hacross : column.band.low ≤ column.x - half (size n).width ∧
      column.x + half (size n).width ≤ column.band.high := Band.low_le_of_around hwidth
  have hdown : row.band.low ≤ row.y - half (size n).height ∧
      row.y + half (size n).height ≤ row.band.high := Band.low_le_of_around hheight
  rw [← hx] at hacross
  rw [← hy] at hdown
  exact ⟨column, hc, row, hr, hcolumn, hrow, hacross.1, hacross.2, hdown.1, hdown.2⟩

/-- A box in a column or row of a smaller number ends a gap before one of a greater number. -/
theorem Diagram.boxes_apart (size : Node → Size ℚ) (hcolumn : 0 ≤ s.columnGap)
    (hrow : 0 ≤ s.rowGap) (hpadding : 0 ≤ s.columnPadding) (hwidth : 0 ≤ s.minColumnWidth)
    {m n : Node} (hm : m ∈ d.nodes) (hn : n ∈ d.nodes) :
    (m.column < n.column → ((d.place s size m).bounds (size m)).maxX + s.columnGap ≤
        ((d.place s size n).bounds (size n)).minX) ∧
      (d.row m < d.row n → ((d.place s size m).bounds (size m)).maxY + s.rowGap ≤
        ((d.place s size n).bounds (size n)).minY) := by
  obtain ⟨c, hc, r, hr, hcm, hrm, -, hright, -, hbottom⟩ :=
    Diagram.exists_bands size hm hpadding
  obtain ⟨e, he, q, hq, hen, hqn, hleft, -, htop, -⟩ :=
    Diagram.exists_bands size hn hpadding
  constructor
  · intro hlt
    have hgap := (Diagram.columns_apart hcolumn hwidth hc).2 e he (hcm ▸ hen ▸ hlt)
    calc _ ≤ c.band.high + s.columnGap := add_le_add_left hright s.columnGap
      _ ≤ e.band.low := hgap
      _ ≤ _ := hleft
  · intro hlt
    have hgap := (Diagram.rows_apart hrow hr).2 q hq (hrm ▸ hqn ▸ hlt)
    calc _ ≤ r.band.high + s.rowGap := add_le_add_left hbottom s.rowGap
      _ ≤ q.band.low := hgap
      _ ≤ _ := htop

/-- Boxes with a gap between them along one of the axes do not overlap. -/
theorem Bounds.not_overlaps {a b : Bounds ℚ} (h : a.maxX ≤ b.minX ∨ b.maxX ≤ a.minX ∨
    a.maxY ≤ b.minY ∨ b.maxY ≤ a.minY) : ¬ a.Overlaps b := by
  rintro ⟨hright, hleft, hbottom, htop⟩
  rcases h with h | h | h | h
  · exact absurd hleft h.not_gt
  · exact absurd hright h.not_gt
  · exact absurd htop h.not_gt
  · exact absurd hbottom h.not_gt

end

/-- **Bands are disjoint and the canvas holds everything.** Read over exact numbers, with distances
that are not negative, a diagram whose nodes have different ids, and sizes, is laid out in bands:
those of columns and of rows have exactly their gap between them, the box of a node lies in its two
bands and keeps the margins of the canvas, and boxes of different columns or rows do not overlap. -/
theorem layout_bands (d : Diagram) (hd : (d.nodes.map Node.id).Nodup) (s : Spacing ℚ)
    (hcolumn : 0 ≤ s.columnGap) (hrow : 0 ≤ s.rowGap) (hpadding : 0 ≤ s.columnPadding)
    (hwidth : 0 ≤ s.minColumnWidth) (sizeOf : Node → Option (Size ℚ)) (size : Node → Size ℚ)
    (hsize : ∀ n ∈ d.nodes, sizeOf n = some (size n)) :
    ∃ layout, Layout.ofDiagram s sizeOf d = .ok layout ∧ layout.Banded d s size := by
  refine ⟨d.layout s size, Layout.ofDiagram_eq s hsize, ?_⟩
  have hbox : ∀ n ∈ d.nodes, (d.layout s size).boxOf size n =
      some ((d.place s size n).bounds (size n)) := by
    intro n hn
    rw [Layout.boxOf, Diagram.get?_positions hd s size hn, Option.map_some]
  exact
    { columns := by
        rw [d.bands_columns]
        exact Arrangement.isChain_stack
      rows := by
        rw [d.bands_rows]
        exact Arrangement.isChain_stack
      used := by
        rw [d.indices_rows]
        refine ⟨Arrangement.pairwise_increasing _, fun index => ?_⟩
        rw [Arrangement.mem_increasing, List.mem_map]
      holds := by
        intro n hn
        obtain ⟨column, hc, row, hr, hcn, hrn, hleft, hright, htop, hbottom⟩ :=
          Diagram.exists_bands size hn hpadding
        obtain ⟨hside, hend⟩ := Diagram.high_add_margin_le hn hc hcn hr hrn
        refine ⟨_, hbox n hn, ⟨column, hc, hcn, hleft, hright⟩, ⟨row, hr, hrn, htop, hbottom⟩,
          ?_, ?_, ?_, ?_⟩
        · exact (Diagram.columns_apart hcolumn hwidth hc).1.trans hleft
        · exact (add_le_add_left hright s.sideMargin).trans hside
        · exact (Diagram.rows_apart hrow hr).1.trans htop
        · exact (add_le_add_left hbottom s.bottomMargin).trans hend
      apart := by
        intro m hm n hn a b ha hb
        obtain rfl := Option.some.inj ((hbox m hm).symm.trans ha)
        obtain rfl := Option.some.inj ((hbox n hn).symm.trans hb)
        have hmn := Diagram.boxes_apart size hcolumn hrow hpadding hwidth hm hn
        have hnm := Diagram.boxes_apart size hcolumn hrow hpadding hwidth hn hm
        refine ⟨hmn.1, hmn.2, fun hother => Bounds.not_overlaps ?_⟩
        -- Whichever of the two comes first ends before the other begins, even without the gap.
        rcases hother with hne | hne <;> rcases hne.lt_or_gt with hlt | hlt
        · exact .inl ((le_add_of_nonneg_right hcolumn).trans (hmn.1 hlt))
        · exact .inr (.inl ((le_add_of_nonneg_right hcolumn).trans (hnm.1 hlt)))
        · exact .inr (.inr (.inl ((le_add_of_nonneg_right hrow).trans (hmn.2 hlt))))
        · exact .inr (.inr (.inr ((le_add_of_nonneg_right hrow).trans (hnm.2 hlt)))) }

/-- The icons of two lanes stand in different columns, so their boxes have the gap between them. -/
theorem layout_bands_lanes :
    ∃ diagram layout, (Document.read columnsSource).diagram = some diagram ∧
      (diagram.nodes.map Node.id).Nodup ∧ 0 ≤ Spacing.exact.columnGap ∧ 0 ≤ Spacing.exact.rowGap ∧
      0 ≤ Spacing.exact.columnPadding ∧ 0 ≤ Spacing.exact.minColumnWidth ∧
      Layout.ofDiagram .exact (fun _ => some ⟨300, 110⟩) diagram = .ok layout ∧
      ∃ m ∈ diagram.nodes, ∃ n ∈ diagram.nodes, m.id = "a" ∧ n.id = "b" ∧ ∃ a b,
        layout.boxOf (fun _ => ⟨300, 110⟩) m = some a ∧
        layout.boxOf (fun _ => ⟨300, 110⟩) n = some b ∧ a.maxX + 140 ≤ b.minX ∧ ¬ a.Overlaps b := by
  have hnodes : (Document.read columnsSource).diagram.any (fun diagram =>
      diagram.nodes.any fun m => m.id = "a" ∧ diagram.nodes.any fun n =>
        n.id = "b" ∧ m.column < n.column) = true := by decide +kernel
  obtain ⟨diagram, hdiagram, hnodes⟩ := (Option.any_eq_true _ _).mp hnodes
  obtain ⟨m, hm, hnodes⟩ := List.any_eq_true.mp hnodes
  obtain ⟨hmid, hnodes⟩ := of_decide_eq_true hnodes
  obtain ⟨n, hn, hnodes⟩ := List.any_eq_true.mp hnodes
  obtain ⟨hnid, hlt⟩ := of_decide_eq_true hnodes
  have hd : (diagram.nodes.map Node.id).Nodup := Diagram.nodup_of_build hdiagram
  have hnonneg : 0 ≤ Spacing.exact.columnGap ∧ 0 ≤ Spacing.exact.rowGap ∧
      0 ≤ Spacing.exact.columnPadding ∧ 0 ≤ Spacing.exact.minColumnWidth := by decide
  obtain ⟨hcolumn, hrow, hpadding, hwidth⟩ := hnonneg
  obtain ⟨layout, hlayout, hbanded⟩ := layout_bands diagram hd .exact hcolumn hrow hpadding hwidth
    (fun _ => some ⟨300, 110⟩) (fun _ => ⟨300, 110⟩) fun _ _ => rfl
  obtain ⟨a, ha, -⟩ := hbanded.holds m hm
  obtain ⟨b, hb, -⟩ := hbanded.holds n hn
  obtain ⟨hgap, -, hoverlaps⟩ := hbanded.apart m hm n hn a b ha hb
  exact ⟨diagram, layout, hdiagram, hd, hcolumn, hrow, hpadding, hwidth, hlayout, m, hm, n, hn, hmid,
    hnid, a, b, ha, hb, hgap hlt, hoverlaps (.inl hlt.ne)⟩

end Flowchart
