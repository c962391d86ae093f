import Flowchart.Document
import Flowchart.Report
import Flowchart.Settings

/-!
# Drawings

A drawing is a diagram whose nodes have frames, together with its layout. A source with errors gives
no drawing, unless it is read leniently: then any diagram that came of it is drawn.
-/

namespace Flowchart

/-- The diagram of a document, whether or not there are errors beside it. -/
def Document.anyDiagram? (d : Document) : Except (List Diagnostic) Diagram :=
  match d.diagram with
  | some diagram => .ok diagram
  | none => .error d.diagnostics

/-- A diagram on its canvas. -/
structure Drawing where
  /-- The diagram with the frames of its icons. -/
  diagram : Diagram
  /-- Where everything stands. -/
  layout : Layout Float32

namespace Drawing

/-- Draws a document that was read from a source. -/
def ofDocument (s : Settings) (shaper : Shaper) (lenient : Bool) (source : String)
    (document : Document) : Except Failure Drawing := do
  let read := if lenient then document.anyDiagram? else document.diagram?
  match read with
  | .error diagnostics => .error (.source source diagnostics)
  | .ok diagram =>
    let (diagram, layout) ← s.layOut shaper diagram
    pure { diagram, layout }

/-- Draws a source. -/
def ofSource (s : Settings) (lenient : Bool) (source : String) (shaper : Shaper := .none) :
    Except Failure Drawing :=
  ofDocument s shaper lenient source (Document.read source)

/-- The report of a drawing. -/
def report (d : Drawing) : String := Report.ofLayout d.diagram d.layout

end Drawing

end Flowchart
