import Flowchart.Failure
import Flowchart.Layout
import Flowchart.Layout.Font

/-!
# Settings

Settings say which distances a layout keeps and how wide text is taken to be. Everything has a
default. They are read from groups of entries, one group for distances and one for text; keys that
mean nothing are passed over, and a value of the wrong type spoils the whole.
-/

namespace Flowchart

/-- How the width of text is found. -/
inductive Ruler where
  /-- By the widths of the glyphs of a font. -/
  | font
  /-- By one width for all characters. -/
  | fixed
  deriving DecidableEq

/-- How text is measured. -/
structure TextSettings where
  /-- The name of the font. -/
  fontFamily : String := "sans-serif"
  /-- The size of the font. -/
  fontSize : Float32 := 14
  /-- Which of the two ways of measuring is used. -/
  ruler : Ruler := .font
  /-- The width of a character when all have the same. -/
  charWidth : Float32 := 8

/-- The distances of a layout unless others are set. -/
def Spacing.default : Spacing Float32 where
  columnGap := 140
  columnPadding := 80
  minColumnWidth := 260
  minNodeWidth := 220
  topMargin := 140
  bottomMargin := 120
  sideMargin := 160
  rowGap := 90
  minWidth := 640
  minHeight := 600

/-- All settings. -/
structure Settings where
  /-- The distances of the layout. -/
  spacing : Spacing Float32 := Spacing.default
  /-- How text is measured. -/
  text : TextSettings := {}

namespace TextSettings

/-- A size that text can have: a positive number that is not infinite. -/
def isUsable (size : Float32) : Bool := size.isFinite && size > 0

/-- What is wrong with the settings for the ruler in use, if anything. -/
def fault? (t : TextSettings) : Option SettingsFault :=
  -- The number that the other ruler would use is not looked at.
  match t.ruler with
  | .font => if isUsable t.fontSize then none else some (.fontSize t.fontSize)
  | .fixed => if isUsable t.charWidth then none else some (.charWidth t.charWidth)

/-- The measure that the settings ask for, on a machine that shapes text in its fonts. -/
def measure (t : TextSettings) (shaper : Shaper) : Measure :=
  match t.ruler with
  | .font => .ofTypeface shaper (.ofSize (.ofName t.fontFamily) t.fontSize)
  | .fixed => .fixed t.charWidth

end TextSettings

/-- Frames and lays out a diagram as the settings ask for. -/
def Settings.layOut (s : Settings) (shaper : Shaper) (d : Diagram) :
    Except Failure (Diagram × Layout Float32) :=
  match s.text.fault? with
  | some fault => .error (.settings fault)
  | none =>
    let d := d.framed (s.text.measure shaper)
    match Layout.ofDiagram s.spacing Layout.frameSize d with
    | .error node => .error (.unframed node.id)
    | .ok layout => .ok (d, layout)

/-! ## Reading settings -/

/-- What is written under a key. -/
inductive Setting where
  /-- A number. -/
  | number (x : Float32)
  /-- A text. -/
  | text (s : String)
  /-- Further settings by their keys. -/
  | group (entries : List (String × Setting))
  /-- A value that nothing can be set to. -/
  | other

namespace Setting

/-- The number, if the setting is one. -/
def number? : Setting → Option Float32
  | .number x => some x
  | _ => none

/-- The text, if the setting is one. -/
def text? : Setting → Option String
  | .text s => some s
  | _ => none

/-- A choice is written as its name, or as a group that has nothing but an empty group of that
name. -/
def choice? : Setting → Option String
  | .text name => some name
  | .group [(name, .group [])] => some name
  | _ => none

/-- Takes the entries of a group in, one after the other. -/
def takeEntries {α : Type} (take : α → String → Setting → Option α) (start : α) :
    Setting → Option α
  | .group entries => entries.foldlM (fun a (key, value) => take a key value) start
  | _ => none

end Setting

/-- The ruler with a given name. -/
def Ruler.ofName? (name : String) : Option Ruler :=
  match name with
  | "font" => some .font
  | "fixed" => some .fixed
  | _ => none

/-- The spacing with one distance changed. A key that is no distance changes nothing. -/
def Spacing.take (s : Spacing Float32) (key : String) (value : Setting) :
    Option (Spacing Float32) :=
  match key with
  | "column_gap" => value.number?.map fun x => { s with columnGap := x }
  | "column_padding" => value.number?.map fun x => { s with columnPadding := x }
  | "min_column_width" => value.number?.map fun x => { s with minColumnWidth := x }
  | "min_node_width" => value.number?.map fun x => { s with minNodeWidth := x }
  | "top_margin" => value.number?.map fun x => { s with topMargin := x }
  | "bottom_margin" => value.number?.map fun x => { s with bottomMargin := x }
  | "side_margin" => value.number?.map fun x => { s with sideMargin := x }
  | "row_gap" => value.number?.map fun x => { s with rowGap := x }
  | "min_width" => value.number?.map fun x => { s with minWidth := x }
  | "min_height" => value.number?.map fun x => { s with minHeight := x }
  | _ => some s

/-- The text settings with one of them changed. -/
def TextSettings.take (t : TextSettings) (key : String) (value : Setting) : Option TextSettings :=
  match key with
  | "font_family" => value.text?.map fun s => { t with fontFamily := s }
  | "font_size" => value.number?.map fun x => { t with fontSize := x }
  | "measure" => (value.choice?.bind Ruler.ofName?).map fun r => { t with ruler := r }
  | "fixed_char_width" => value.number?.map fun x => { t with charWidth := x }
  | _ => some t

namespace Settings

/-- The settings with one of the two groups taken in. -/
def take (s : Settings) (key : String) (value : Setting) : Option Settings :=
  match key with
  | "layout" => (value.takeEntries Spacing.take s.spacing).map fun spacing => { s with spacing }
  | "text" => (value.takeEntries TextSettings.take s.text).map fun text => { s with text }
  | _ => some s

/-- The settings that a group describes, starting from the defaults. -/
def ofSetting? (root : Setting) : Option Settings := root.takeEntries take {}

end Settings

end Flowchart
