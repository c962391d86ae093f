import Flowchart.Geometry
import Flowchart.Table

/-!
# Columns and rows

Boxes that know their column and their row are arranged on a canvas. Columns run from left to right
in the order of their numbers, rows from top to bottom; a column is as wide as its widest box needs,
a row as high as its highest one, and a box stands in the centre of the cell that its column and its
row share.

Lengths are of an arbitrary type, so the same arrangement runs on machine numbers and can be read
over exact ones.
-/

namespace Flowchart

/-- The distances that an arrangement keeps. -/
structure Spacing (α : Type) where
  /-- The distance between two columns. -/
  columnGap : α
  /-- The room beside the widest box of a column, on both sides together. -/
  columnPadding : α
  /-- The least width of a column. -/
  minColumnWidth : α
  /-- The least width that a column reserves for its boxes. -/
  minNodeWidth : α
  /-- The room above the first row. -/
  topMargin : α
  /-- The room below the last row. -/
  bottomMargin : α
  /-- The room beside the outer columns, on each side. -/
  sideMargin : α
  /-- The distance between two rows. -/
  rowGap : α
  /-- The least width of the canvas. -/
  minWidth : α
  /-- The least height of the canvas. -/
  minHeight : α

/-- Something to arrange. Boxes of a column are listed by their depth. -/
structure Box (α : Type) where
  /-- The name of the box. -/
  id : String
  /-- The number of its column. -/
  column : Nat
  /-- The number that orders the boxes of a column. -/
  depth : Nat
  /-- The number of its row. -/
  row : Nat
  /-- Its width and height. -/
  size : Size α

/-- A column of the canvas; `x` is its centre. -/
structure Column (α : Type) where
  /-- The number of the column. -/
  index : Nat
  /-- The centre. -/
  x : α
  /-- The width, as wide as the widest box needs. -/
  width : α
  /-- The boxes in it, from top to bottom. -/
  members : List String

/-- A row of the canvas; `y` is its centre. -/
structure Row (α : Type) where
  /-- The number of the row. -/
  index : Nat
  /-- The centre. -/
  y : α
  /-- The height, as high as the highest box. -/
  height : α

/-- The places of all boxes and the size of the canvas. -/
structure Arrangement (α : Type) where
  /-- The size of the canvas. -/
  size : Size α
  /-- The columns, from left to right. -/
  columns : List (Column α)
  /-- The centres of the boxes. -/
  positions : Table String (Point α)

namespace Arrangement

/-- Puts a number into an increasing list, unless it is there already. -/
def insertNumber (n : Nat) : List Nat → List Nat
  | [] => [n]
  | m :: ms =>
    if n < m then n :: m :: ms else if n = m then m :: ms else m :: insertNumber n ms

/-- Numbers in increasing order, each once. -/
def increasing (ns : List Nat) : List Nat := ns.foldr insertNumber []

/-- Puts a box before the first one that is not less deep. -/
def insertBox {α : Type} (b : Box α) : List (Box α) → List (Box α)
  | [] => [b]
  | c :: cs => if b.depth ≤ c.depth then b :: c :: cs else c :: insertBox b cs

/-- Boxes by their depth; equally deep ones keep their order. -/
def byDepth {α : Type} (boxes : List (Box α)) : List (Box α) := boxes.foldr insertBox []

section

variable {α : Type} [Scalar α]

/-- The boxes of a column, by depth and then in the order in which they are given. -/
def membersOf (boxes : List (Box α)) (column : Nat) : List (Box α) :=
  byDepth (boxes.filter (·.column = column))

/-- The width of a column with some members. -/
def columnWidth (s : Spacing α) (members : List (Box α)) : α :=
  let widest := members.foldl (fun widest b => Scalar.larger widest b.size.width) s.minNodeWidth
  Scalar.larger (widest + s.columnPadding) s.minColumnWidth

/-- Places columns one after the other, from a left edge on. -/
def placeColumns (s : Spacing α) (boxes : List (Box α)) (left : α) : List Nat → List (Column α)
  | [] => []
  | index :: rest =>
    let members := membersOf boxes index
    let width := columnWidth s members
    ⟨index, left + half width, width, members.map Box.id⟩ ::
      placeColumns s boxes (left + (width + s.columnGap)) rest

/-- The height of a row. -/
def rowHeight (boxes : List (Box α)) (row : Nat) : α :=
  (boxes.filter (·.row = row)).foldl (fun height b => Scalar.larger height b.size.height)
    (Scalar.ofNat 0)

/-- Places rows one below the other, from an upper edge on. -/
def placeRows (s : Spacing α) (boxes : List (Box α)) (top : α) : List Nat → List (Row α)
  | [] => []
  | index :: rest =>
    let height := rowHeight boxes index
    ⟨index, top + half height, height⟩ ::
      placeRows s boxes (top + (height + s.rowGap)) rest

/-- The column with a number. -/
def column? (columns : List (Column α)) (index : Nat) : Option (Column α) :=
  columns.find? (·.index = index)

/-- The row with a number. -/
def row? (rows : List (Row α)) (index : Nat) : Option (Row α) := rows.find? (·.index = index)

/-- The centre of a box. -/
def centre (columns : List (Column α)) (rows : List (Row α)) (b : Box α) : Point α where
  x := ((column? columns b.column).map Column.x).getD (Scalar.ofNat 0)
  y := ((row? rows b.row).map Row.y).getD (Scalar.ofNat 0)

/-- The cell that a box stands in: where its column and its row meet. -/
def cell? (columns : List (Column α)) (rows : List (Row α)) (b : Box α) : Option (Bounds α) :=
  match column? columns b.column, row? rows b.row with
  | some column, some row => some (Point.bounds ⟨column.x, row.y⟩ ⟨column.width, row.height⟩)
  | _, _ => none

/-- The smallest bounds that contain all given ones. -/
def mergeAll : List (Bounds α) → Option (Bounds α)
  | [] => none
  | b :: bs => some (bs.foldl Bounds.merge b)

/-- The right and the lower edge of what is on the canvas; without boxes, the edges at which the
canvas has its margins and nothing between them. -/
def contentEnd (s : Spacing α) (cells : List (Bounds α)) : Point α :=
  match mergeAll cells with
  | some bounds => ⟨bounds.maxX, bounds.maxY⟩
  -- The gap is taken away that would follow the last column.
  | none => ⟨s.sideMargin - s.columnGap, s.topMargin⟩

/-- Arranges boxes. -/
def ofBoxes (s : Spacing α) (boxes : List (Box α)) : Arrangement α :=
  let columns := placeColumns s boxes s.sideMargin (increasing (boxes.map Box.column))
  let rows := placeRows s boxes s.topMargin (increasing (boxes.map Box.row))
  -- The canvas holds all cells and not only the boxes in them.
  let content := contentEnd s (boxes.filterMap (cell? columns rows))
  { size :=
      { width := Scalar.larger (content.x + s.sideMargin) s.minWidth
        height := Scalar.larger (content.y + s.bottomMargin) s.minHeight }
    columns
    positions := Table.ofPairs (boxes.map fun b => (b.id, centre columns rows b)) }

end

end Arrangement

end Flowchart
