import Flowchart.Geometry
import Flowchart.Layout.Wrap

/-!
# Fonts

The width of text in a font is found by shaping it: that breaks the text into runs of glyphs, and
the right end that lies furthest to the right is the width. Shaping is a parameter, so whatever is
shown of labels and layouts holds for every font there may be.
-/

namespace Flowchart

/-- A family of fonts: one of the three general ones, or one that goes by its name. -/
inductive FontFamily where
  /-- Letters without serifs. -/
  | sansSerif
  /-- Letters with serifs. -/
  | serif
  /-- Letters of one width. -/
  | monospace
  /-- The fonts with a name. -/
  | named (name : String)
  deriving DecidableEq

/-- The family that a name means. -/
def FontFamily.ofName (name : String) : FontFamily :=
  match name with
  | "sans-serif" => .sansSerif
  | "serif" => .serif
  | "monospace" => .monospace
  | name => .named name

/-- A font at a size. -/
structure Typeface where
  /-- The family that the font is taken from. -/
  family : FontFamily
  /-- The size of the letters. -/
  size : Float32
  /-- The distance between two lines of text. -/
  lineHeight : Float32

/-- The typeface of a family at a size: lines stand a little further apart than the letters are
high. -/
def Typeface.ofSize (family : FontFamily) (size : Float32) : Typeface where
  family
  size
  lineHeight := size * 1.15

/-- Shapes text in a typeface: gives the right end of every run that has glyphs. -/
abbrev Shaper := Typeface → List Char → List Float32

/-- Where there are no fonts, no text has glyphs. -/
def Shaper.none : Shaper := fun _ _ => []

/-- The widths that text is estimated to have when nothing is known of them. -/
def Measure.estimate : Measure := .fixed 8

/-- Measures text in a typeface. Empty text is not shaped, and text without glyphs is estimated. -/
def Measure.ofTypeface (shaper : Shaper) (face : Typeface) : Measure := fun cs =>
  if cs.isEmpty then 0
  else
    match shaper face cs with
    | [] => Measure.estimate cs
    | rightEnd :: rightEnds => rightEnds.foldl Scalar.larger rightEnd

end Flowchart
