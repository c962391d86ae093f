import Flowchart.Session

/-!
# The program

Reads the files that a session asks for, writes its report and prints what went wrong.
-/

namespace Flowchart

/-- Short help. -/
def usage : String :=
  "Usage: drakon [OPTIONS] <INPUT>\n\n" ++
    "  -o, --output <FILE>     Path to the TOML layout report (default: out.toml)\n" ++
    "  -c, --config <FILE>     Path to the configuration file (TOML)\n" ++
    "      --log-level <LEVEL> off, error, warn, info, debug or trace (default: info)\n" ++
    "      --lenient           Lay out whatever could be built\n" ++
    "  -h, --help              Print help\n" ++
    "  -V, --version           Print version\n"

/-- The message about arguments that cannot be read. -/
def UsageFault.message : UsageFault → String
  | .helpAsked => usage
  | .versionAsked => "drakon 0.1.0\n"
  | .missingInput => "error: the path of the input file is missing\n\n" ++ usage
  | .unknownArgument => "error: unexpected argument\n\n" ++ usage
  | .missingValue => "error: an option lacks its value\n\n" ++ usage
  | .surplusValue => "error: an option takes no value\n\n" ++ usage
  | .repeatedOption => "error: an option is given twice\n\n" ++ usage

/-- Whether warnings are shown at a level of logging; an unknown level shows them. -/
def showsWarnings (level : String) : Bool := !(level.toLower == "off" || level.toLower == "error")

/-- Whether errors are shown at a level of logging. -/
def showsErrors (level : String) : Bool := level.toLower != "off"

/-- The lines that tell of a failure. -/
def Failure.lines : Failure → List String
  | .source _ diagnostics => diagnostics.map Diagnostic.display
  | failure => [failure.message.getD "I/O error"]

/-- Looks a path up. -/
def lookUp (path : String) : IO Content := do
  try
    match String.fromUTF8? (← IO.FS.readBinFile path) with
    | some content => pure (.text content)
    | none => pure .unreadable
  catch
    | .noFileOrDirectory .. => pure .absent
    | _ => pure .unreadable

/-- The settings file of the user. -/
def userSettingsFile : IO (Option String) := do
  match ← IO.getEnv "XDG_CONFIG_HOME", ← IO.getEnv "HOME" with
  | some folder, _ => pure (some (folder ++ "/drakon/config.toml"))
  | none, some home => pure (some (home ++ "/.config/drakon/config.toml"))
  | none, none => pure none

/-- Reads every file that a session may ask for. -/
def gatherFiles (paths : List String) : IO Files := do
  let found ← paths.mapM fun path => do pure (path, ← lookUp path)
  pure fun path => (Table.get? found path).getD .absent

/-- Writes a file, and says whether that was possible. -/
def tryWrite (path content : String) : IO Bool := do
  try
    IO.FS.writeFile path content
    pure true
  catch _ => pure false

/-- Runs a session on the disk. -/
def runOnDisk (options : Options) : IO UInt32 := do
  let userFile ← userSettingsFile
  let files ← gatherFiles
    (options.input :: Settings.localFile :: options.settingsFile.toList ++ userFile.toList)
  -- No fonts are looked up, so a ruler that asks for one comes down to the estimate.
  let outcome := Session.run options files userFile .none
  let writable ← match outcome.written with
    | some report => tryWrite options.output report
    | none => pure true
  if showsWarnings options.logLevel then
    for diagnostic in outcome.warnings do IO.eprintln diagnostic.display
  match outcome.failureAfter writable with
  | none => pure 0
  | some failure =>
    if showsErrors options.logLevel then
      for line in failure.lines do IO.eprintln line
    pure 1

end Flowchart

open Flowchart in
/-- Runs the program; the answer is its exit code. -/
def main (arguments : List String) : IO UInt32 := do
  match Options.ofArguments arguments with
  | .ok options => runOnDisk options
  | .error fault =>
    if fault = .helpAsked ∨ fault = .versionAsked then
      IO.print fault.message
      pure 0
    else
      IO.eprint fault.message
      pure 2
