/-!
# Points, sizes, boxes and insets

The origin is the top left corner, `x` grows to the right and `y` downwards; a node's position is
the centre of its box. Everything is stated over an arbitrary type of lengths, so that the same
definitions run on machine numbers and can be read over exact ones.
-/

namespace Flowchart

/-- What a type of lengths has to offer. -/
class Scalar (α : Type) extends Add α, Sub α, Div α where
  /-- A whole number as a length. -/
  ofNat : Nat → α
  /-- The larger of two lengths. -/
  larger : α → α → α
  /-- The smaller of two lengths. -/
  smaller : α → α → α

/-- On machine numbers, what is not a number gives way to the other one, and of two that are equal
the second is taken. The two zeros are equal, so that is how their signs come out. -/
instance : Scalar Float32 where
  ofNat n := Float32.ofNat n
  larger x y := if x.isNaN || x ≤ y then y else x
  smaller x y := if x.isNaN || y ≤ x then y else x

/-- A place on the canvas. -/
structure Point (α : Type) where
  /-- The distance from the left. -/
  x : α
  /-- The distance from the top. -/
  y : α

/-- Width and height of a box. -/
structure Size (α : Type) where
  /-- From left to right. -/
  width : α
  /-- From top to bottom. -/
  height : α

/-- A box given by its four sides. -/
structure Bounds (α : Type) where
  /-- The left edge. -/
  minX : α
  /-- The upper edge. -/
  minY : α
  /-- The right edge. -/
  maxX : α
  /-- The lower edge. -/
  maxY : α

/-- Distances from the four sides of a box, clockwise from the top. -/
structure Insets (α : Type) where
  /-- The room above. -/
  top : α
  /-- The room on the right. -/
  right : α
  /-- The room below. -/
  bottom : α
  /-- The room on the left. -/
  left : α

section

variable {α : Type} [Scalar α]

/-- The half of a length. -/
def half (length : α) : α := length / Scalar.ofNat 2

/-- The box of a given size around a point. -/
def Point.bounds (centre : Point α) (size : Size α) : Bounds α where
  minX := centre.x - half size.width
  minY := centre.y - half size.height
  maxX := centre.x + half size.width
  maxY := centre.y + half size.height

/-- The smallest box that contains both. -/
def Bounds.merge (a b : Bounds α) : Bounds α where
  minX := Scalar.smaller a.minX b.minX
  minY := Scalar.smaller a.minY b.minY
  maxX := Scalar.larger a.maxX b.maxX
  maxY := Scalar.larger a.maxY b.maxY

/-- The same inset on every side. -/
def Insets.uniform (inset : α) : Insets α := ⟨inset, inset, inset, inset⟩

/-- What the insets take away from a width. -/
def Insets.horizontal (i : Insets α) : α := i.left + i.right

/-- What the insets take away from a height. -/
def Insets.vertical (i : Insets α) : α := i.top + i.bottom

end

end Flowchart
