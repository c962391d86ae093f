import Flowchart.Drawing
import Flowchart.Options
import Flowchart.Settings.Document

/-!
# Sessions

A session reads the settings and the source and says what to write. It sees files only through a
function from paths to what is there, so nothing here touches a disk.

Settings come from the first place that has some: the file that the options name, which has to
exist, else a local file, else the file of the user, else the defaults.
-/

namespace Flowchart

/-- What is found under a path. -/
inductive Content where
  /-- There is no such file. -/
  | absent
  /-- The file is no text. -/
  | unreadable
  /-- The file and its text. -/
  | text (content : String)

/-- The files that a session can see. -/
abbrev Files := String → Content

/-- The settings file of a working directory. -/
def Settings.localFile : String := "drakon/config.toml"

namespace Settings

/-- The settings in a file. -/
def inFile (path : String) : Content → Except Failure Settings
  | .absent => .error (.settings (.missingFile path))
  | .unreadable => .error .files
  | .text content =>
    match (document? content).bind ofSetting? with
    | some settings => .ok settings
    | none => .error (.settings (.unreadableFile path))

/-- The settings in the first of some files that exists, else the defaults. -/
def inFirst (files : Files) : List String → Except Failure Settings
  | [] => .ok {}
  | path :: paths =>
    match files path with
    | .absent => inFirst files paths
    | content => inFile path content

/-- Finds the settings. -/
def find (files : Files) (named userFile : Option String) : Except Failure Settings :=
  match named with
  | some path => inFile path (files path)
  | none => inFirst files (localFile :: userFile.toList)

end Settings

/-- What a session comes to. -/
structure Outcome where
  /-- What is to be written to the output file. -/
  written : Option String := none
  /-- Why nothing could be written. -/
  failure : Option Failure := none
  /-- What was passed over in a lenient session. -/
  warnings : List Diagnostic := []

/-- The failure of a session once its output file has been written, or could not be. -/
def Outcome.failureAfter (o : Outcome) (writable : Bool) : Option Failure :=
  if o.written.isSome && !writable then some .files else o.failure

namespace Session

/-- The source in a file. -/
def source : Content → Except Failure String
  | .text content => .ok content
  | _ => .error .files

/-- What a failed session writes: a lenient one says in a report that the source is broken. -/
def leftBehind (lenient : Bool) (failure : Failure) : Option String :=
  match lenient, failure with
  | true, .source .. => some (Report.placeholder Report.brokenMessage)
  | _, _ => none

/-- Draws a source. -/
def draw (settings : Settings) (shaper : Shaper) (lenient : Bool) (source : String) : Outcome :=
  let document := Document.read source
  match Drawing.ofDocument settings shaper lenient source document with
  | .ok drawing =>
    { written := some drawing.report, warnings := if lenient then document.diagnostics else [] }
  | .error failure =>
    { written := leftBehind lenient failure, failure := some failure }

/-- Runs a session. Settings are looked at before the source. -/
def run (options : Options) (files : Files) (userFile : Option String)
    (shaper : Shaper := .none) : Outcome :=
  let inputs := do
    -- Broken settings are the failure even when there is no source, either.
    let settings ← Settings.find files options.settingsFile userFile
    pure (settings, ← source (files options.input))
  match inputs with
  | .ok (settings, source) => draw settings shaper options.lenient source
  | .error failure => { failure := some failure }

end Session

end Flowchart
