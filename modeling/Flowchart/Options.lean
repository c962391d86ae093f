/-!
# Command-line options

The arguments name one source file, and options say what to do with it. An option that takes a value
has it in the next argument or attached to itself, as in `--output=a`, `-oa` and `-o=a`. After `--`
every argument is a file name, even one that starts with a hyphen.

An option that waits for its value is closed by the next argument that is understood, or by the end
of the arguments, and only then is it a fault that it has no value or was given before.
-/

namespace Flowchart

/-- What the command line asks for. -/
structure Options where
  /-- The source file. -/
  input : String
  /-- The file that is written. -/
  output : String := "out.toml"
  /-- The file with the settings, if one is given. -/
  settingsFile : Option String := none
  /-- How much is logged. -/
  logLevel : String := "info"
  /-- Whether errors of the source are passed over. -/
  lenient : Bool := false
  deriving DecidableEq

/-- Why no options can be read from arguments. -/
inductive UsageFault where
  /-- Help is asked for. -/
  | helpAsked
  /-- The version is asked for. -/
  | versionAsked
  /-- There is no source file. -/
  | missingInput
  /-- There is no such option, or one file too many. -/
  | unknownArgument
  /-- An option has no value. -/
  | missingValue
  /-- A switch has a value. -/
  | surplusValue
  /-- An option is given twice. -/
  | repeatedOption
  deriving DecidableEq

/-- An option that takes a value. -/
inductive ValueOption where
  | output
  | settingsFile
  | logLevel
  deriving DecidableEq

/-- An option without a value. -/
inductive Switch where
  | lenient
  | help
  | version
  deriving DecidableEq

/-- Any option. -/
inductive OptionName where
  /-- An option with a value. -/
  | value (name : ValueOption)
  /-- An option without one. -/
  | switch (name : Switch)
  deriving DecidableEq

namespace OptionName

/-- The option with a long name, written after two hyphens. -/
def ofLong? (name : List Char) : Option OptionName :=
  match String.ofList name with
  | "output" => some (.value .output)
  | "config" => some (.value .settingsFile)
  | "log-level" => some (.value .logLevel)
  | "lenient" => some (.switch .lenient)
  | "help" => some (.switch .help)
  | "version" => some (.switch .version)
  | _ => none

/-- The option with a letter for a name, written after one hyphen. -/
def ofLetter? (letter : Char) : Option OptionName :=
  match letter with
  | 'o' => some (.value .output)
  | 'c' => some (.value .settingsFile)
  | 'h' => some (.switch .help)
  | 'V' => some (.switch .version)
  | _ => none

end OptionName

/-- An argument by its form. -/
inductive Argument where
  /-- No option. -/
  | plain (text : String)
  /-- Two hyphens alone. -/
  | separator
  /-- Two dashes and a name, perhaps with a value behind an equals sign. -/
  | long (name : List Char) (value : Option String)
  /-- One dash and letters. -/
  | short (letter : Char) (rest : List Char)

/-- The form of an argument. A hyphen alone is a file name. -/
def Argument.ofText (text : String) : Argument :=
  match text.toList with
  | ['-', '-'] => .separator
  | '-' :: '-' :: body =>
    let name := body.takeWhile (· != '=')
    match body.drop name.length with
    | [] => .long name none
    | _ :: value => .long name (some (String.ofList value))
  | '-' :: letter :: rest => .short letter rest
  | _ => .plain text

/-- What has been read from the arguments so far. -/
structure GivenOptions where
  /-- The source file. -/
  input : Option String := none
  /-- The file to write. -/
  output : Option String := none
  /-- The file with the settings. -/
  settingsFile : Option String := none
  /-- How much is to be logged. -/
  logLevel : Option String := none
  /-- Whether errors of the source are to be passed over. -/
  lenient : Bool := false
  /-- The last option, with its value if there is one already. -/
  pending : Option (ValueOption × Option String) := none

namespace GivenOptions

/-- Puts a value into its place if that is empty. -/
def fill (place : Option String) (value : String) : Except UsageFault (Option String) :=
  match place with
  | none => .ok (some value)
  | some _ => .error .repeatedOption

/-- Sets an option. -/
def set (g : GivenOptions) (name : ValueOption) (value : String) :
    Except UsageFault GivenOptions := do
  match name with
  | .output => pure { g with output := ← fill g.output value }
  | .settingsFile => pure { g with settingsFile := ← fill g.settingsFile value }
  | .logLevel => pure { g with logLevel := ← fill g.logLevel value }

/-- Closes the option that is pending. -/
def close (g : GivenOptions) : Except UsageFault GivenOptions :=
  match g.pending with
  | none => .ok g
  | some (_, none) => .error .missingValue
  | some (name, some value) => { g with pending := none }.set name value

/-- Takes a file name. There is room for one. -/
def takeInput (g : GivenOptions) (text : String) : Except UsageFault GivenOptions := do
  if g.input.isSome then .error .unknownArgument
  else
    let g ← g.close
    pure { g with input := some text }

/-- Takes an option without a value. -/
def takeSwitch (g : GivenOptions) (name : Switch) : Except UsageFault GivenOptions := do
  let g ← g.close
  match name with
  | .help => .error .helpAsked
  | .version => .error .versionAsked
  | .lenient => if g.lenient then .error .repeatedOption else pure { g with lenient := true }

/-- Takes an option that has a value, attached to it or still to come. -/
def takeValueOption (g : GivenOptions) (name : ValueOption) (attached : Option String) :
    Except UsageFault GivenOptions := do
  let g ← g.close
  match attached with
  | none => pure { g with pending := some (name, none) }
  | some value => g.set name value

/-- The value attached to a letter, with or without an equals sign between them. -/
def attachedValue? : List Char → Option String
  | [] => none
  | '=' :: value => some (String.ofList value)
  | value => some (String.ofList value)

/-- Takes an argument that is no separator. -/
def take (g : GivenOptions) (argument : Argument) : Except UsageFault GivenOptions :=
  match argument with
  | .plain text =>
    match g.pending with
    | some (name, none) => .ok { g with pending := some (name, some text) }
    | _ => g.takeInput text
  | .separator => .ok g
  | .long name value =>
    match OptionName.ofLong? name with
    | none => .error .unknownArgument
    | some (.value name) => g.takeValueOption name value
    | some (.switch name) => if value.isSome then .error .surplusValue else g.takeSwitch name
  | .short letter rest =>
    match OptionName.ofLetter? letter with
    | none => .error .unknownArgument
    | some (.value name) => g.takeValueOption name (attachedValue? rest)
    | some (.switch name) => g.takeSwitch name

/-- Takes all arguments in turn. -/
def takeAll (g : GivenOptions) : List String → Except UsageFault GivenOptions
  | [] => .ok g
  | text :: texts =>
    match Argument.ofText text with
    | .separator => texts.foldlM takeInput g
    | argument => do (← g.take argument).takeAll texts

end GivenOptions

/-- The options that arguments give. -/
def Options.ofArguments (texts : List String) : Except UsageFault Options := do
  let g ← (← GivenOptions.takeAll {} texts).close
  match g.input with
  | none => .error .missingInput
  | some input =>
    pure
      { input
        output := g.output.getD "out.toml"
        settingsFile := g.settingsFile
        logLevel := g.logLevel.getD "info"
        lenient := g.lenient }

end Flowchart
