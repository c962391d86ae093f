import Flowchart.Diagram.Node

/-!
# Shapes

The shape of an icon gives its width, its least height, the height of a line of text and the room
kept free around the text. Most measures are simple fractions of those of a base icon, so icons keep
their proportions to each other.
-/

namespace Flowchart

/-- The measures of the icons of one kind. -/
structure Shape where
  /-- The width of the icon. -/
  width : Float32
  /-- The least height of the icon. -/
  minHeight : Float32
  /-- The height of a line of text. -/
  lineHeight : Float32
  /-- The room kept free around the text. -/
  padding : Insets Float32
  /-- Whether the icon grows with its text. -/
  grows : Bool := true

namespace Shape

/-- The numerator and the denominator of a fraction of a base measure. -/
def fraction (base numerator denominator : Float32) : Float32 := base * numerator / denominator

/-- The width of the base icon. -/
def baseWidth : Float32 := 240

/-- The least height of the base icon. -/
def baseHeight : Float32 := 170

/-- The height of a line in the base icon. -/
def baseLine : Float32 := 22

/-- The room around the text of the base icon. -/
def basePadding : Float32 := 28

/-- A fraction of the base width. -/
def ofWidth (numerator denominator : Float32) : Float32 := fraction baseWidth numerator denominator

/-- A fraction of the base height. -/
def ofHeight (numerator denominator : Float32) : Float32 :=
  fraction baseHeight numerator denominator

/-- A fraction of the height of a base line. -/
def ofLine (numerator denominator : Float32) : Float32 := fraction baseLine numerator denominator

/-- A fraction of the base padding. -/
def ofPadding (numerator denominator : Float32) : Float32 :=
  fraction basePadding numerator denominator

/-- A shape with the base padding. -/
def plain (width minHeight lineHeight : Float32) : Shape :=
  { width, minHeight, lineHeight, padding := .uniform basePadding }

/-- The shape with other room above and below the text. -/
def withVertical (s : Shape) (top bottom : Float32) : Shape :=
  { s with padding := { s.padding with top, bottom } }

/-- The shape with other room beside the text. -/
def withHorizontal (s : Shape) (left right : Float32) : Shape :=
  { s with padding := { s.padding with left, right } }

/-- The shape with its least height as the only one. -/
def rigid (s : Shape) : Shape := { s with grows := false }

/-- The shape of the base icon. -/
def base : Shape := plain baseWidth baseHeight baseLine

/-- The shape of the icons with a given name; names without an entry have the base shape. -/
def ofName (name : String) : Shape :=
  match name with
  | "start" =>
    (plain (ofWidth 5 6) (ofHeight 10 17) (ofLine 10 11)).withVertical (ofPadding 5 7)
      (ofPadding 5 7)
  | "end" => plain baseWidth 140 baseLine
  | "action" => plain baseWidth (ofHeight 14 17) baseLine
  | "parameters" =>
    ((plain (ofWidth 5 4) (ofHeight 11 17) (ofLine 9 11)).withVertical (ofPadding 6 7)
      (ofPadding 5 7)).withHorizontal (ofPadding 8 7) (ofPadding 6 7)
  | "comment" =>
    ((plain (ofWidth 7 6) (ofHeight 18 17) baseLine).withVertical (ofPadding 9 7)
      (ofPadding 9 7)).withHorizontal (ofPadding 10 7) (ofPadding 10 7)
  | "question" => plain (ofWidth 4 3) baseHeight baseLine
  | "choice" => (plain 280 200 24).withVertical 36 36
  | "choice_case" | "choice_else" => base.withVertical (ofPadding 10 9) (ofPadding 6 5)
  | "insertion" =>
    (plain (ofWidth 13 12) (ofHeight 20 17) baseLine).withVertical (ofPadding 8 7) (ofPadding 8 7)
  | "for_each" | "loop_end" =>
    (plain (ofWidth 13 12) (ofHeight 9 17) (ofLine 9 11)).withVertical (ofPadding 3 7)
      (ofPadding 3 7)
  | "parallel" =>
    (plain (ofWidth 13 12) (ofHeight 22 17) (ofLine 12 11)).withVertical (ofPadding 9 7)
      (ofPadding 9 7)
  | "input" | "output" =>
    (plain (ofWidth 7 6) (ofHeight 18 17) baseLine).withVertical (ofPadding 8 7) (ofPadding 8 7)
  | "simple_input" | "simple_output" =>
    (plain baseWidth (ofHeight 14 17) baseLine).withVertical basePadding (ofPadding 6 7)
  | "shelf" => (plain 320 190 baseLine).withVertical 42 28
  | "process" => (plain 260 260 24).withVertical 72 36
  | "ctrl_period_start" | "ctrl_period_end" =>
    (plain (ofWidth 13 12) (ofHeight 22 17) (ofLine 12 11)).withVertical (ofPadding 11 7)
      (ofPadding 9 7)
  | "duration" =>
    (plain baseWidth (ofHeight 14 17) baseLine).withVertical (ofPadding 13 14) (ofPadding 13 14)
  | "pause" =>
    (plain baseWidth (ofHeight 16 17) baseLine).withVertical (ofPadding 8 7) (ofPadding 8 7)
  | "timer" =>
    (plain (ofWidth 13 12) (ofHeight 26 17) (ofLine 12 11)).withVertical (basePadding * 5)
      (ofPadding 9 7)
  | "group_duration" => (plain 120 260 baseLine).withVertical 36 36
  | _ => base

/-- The width that is left for text. -/
def textWidth (s : Shape) : Float32 := Scalar.larger (s.width - s.padding.horizontal) 4

/-- The height of an icon with some lines of text. -/
def heightFor (s : Shape) (lineCount : Nat) : Float32 :=
  if s.grows then
    Scalar.larger s.minHeight (s.padding.vertical + Float32.ofNat lineCount * s.lineHeight)
  else s.minHeight

end Shape

end Flowchart
