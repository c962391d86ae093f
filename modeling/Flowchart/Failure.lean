import Flowchart.Decimal.Text
import Flowchart.Diagnostic

/-!
# Failures

Why a diagram could not be drawn: a file that cannot be read or written, a source with errors,
settings that cannot be used, or a diagram that is not ready to be laid out.
-/

namespace Flowchart

/-- What is wrong with settings. -/
inductive SettingsFault where
  /-- There is no such settings file. -/
  | missingFile (path : String)
  /-- The settings file cannot be read or understood. -/
  | unreadableFile (path : String)
  /-- Text cannot have this size. -/
  | fontSize (size : Float32)
  /-- A character cannot have this width. -/
  | charWidth (width : Float32)

/-- The message about a fault in settings. -/
def SettingsFault.message : SettingsFault → String
  | .missingFile path => "Missing configuration file: " ++ path
  | .unreadableFile path => "Failed to parse TOML configuration " ++ path
  | .fontSize size => "text.font_size must be positive, got " ++ Decimal.ofFloat32 size
  | .charWidth width => "text.fixed_char_width must be positive, got " ++ Decimal.ofFloat32 width

/-- Why a diagram could not be drawn. -/
inductive Failure where
  /-- A file cannot be read or written. -/
  | files
  /-- The source has errors. -/
  | source (text : String) (diagnostics : List Diagnostic)
  /-- The settings cannot be used. -/
  | settings (fault : SettingsFault)
  /-- A node has no frame yet. -/
  | unframed (id : String)

/-- The message about a failure; what went wrong with a file is for its owner to say. -/
def Failure.message : Failure → Option String
  | .files => none
  | .source _ diagnostics => some (Diagnostic.summary diagnostics)
  | .settings fault => some ("Configuration error: " ++ fault.message)
  | .unframed id =>
    some ("Layout error: Node \"" ++ id ++ "\" has no geometry; prepare nodes before layout")

/-- The code of a failure; the diagnostics of a source have codes of their own. -/
def Failure.code : Failure → Option String
  | .files => some "drakon::io"
  | .source .. => none
  | .settings _ => some "drakon::config"
  | .unframed _ => some "drakon::layout"

end Flowchart
