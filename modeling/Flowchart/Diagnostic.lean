import Flowchart.Span

/-!
# Diagnostics

A diagnostic is an error or a warning with a code, a message, labelled spans of the source and
perhaps a hint. Reading, parsing and building each have causes of their own; all of them are shown
as diagnostics.
-/

namespace Flowchart

/-- Whether a fault makes the document unusable. -/
inductive Severity where
  /-- The document cannot be used. -/
  | error
  /-- The document can be used without what is at fault. -/
  | warning
  deriving DecidableEq

/-- The word that opens a diagnostic. -/
def Severity.word : Severity → String
  | .error => "error"
  | .warning => "warning"

/-- The kinds of fault: `E0` while reading characters, `E1` while reading statements and `E3` while
building the diagram. -/
inductive Code where
  /-- A quote opens a text that is not closed. -/
  | unterminatedString
  /-- A character starts no token. -/
  | unexpectedCharacter
  /-- A text ends behind a backslash. -/
  | unterminatedEscape
  /-- The marker that closes a heredoc is missing. -/
  | unterminatedHeredoc
  /-- A token does not belong where it stands. -/
  | unexpectedToken
  /-- A value should stand where a token does. -/
  | unexpectedValue
  /-- There is no block to build a diagram from. -/
  | missingRoot
  /-- The id of a node is in use. -/
  | duplicateNode
  /-- A name belongs to no node. -/
  | unknownReference
  /-- A reference that is asked for is missing, or is no text. -/
  | invalidReference
  /-- An author must not write a block of this name. -/
  | reservedBlock
  /-- A block must not stand where it does. -/
  | unsupportedBlock
  /-- A branch of a question cannot be placed as it is written. -/
  | malformedBranch
  /-- The branch of a question holds no icon. -/
  | emptyBranch
  deriving DecidableEq

namespace Code

/-- The code as it is shown. -/
def text : Code → String
  | .unterminatedString => "E001"
  | .unexpectedCharacter => "E002"
  | .unterminatedEscape => "E003"
  | .unterminatedHeredoc => "E004"
  | .unexpectedToken => "E100"
  | .unexpectedValue => "E101"
  | .missingRoot => "E300"
  | .duplicateNode => "E301"
  | .unknownReference => "E302"
  | .invalidReference => "E303"
  | .reservedBlock => "E304"
  | .unsupportedBlock => "E305"
  | .malformedBranch => "E306"
  | .emptyBranch => "E307"

/-- What the code means, in a few words. -/
def description : Code → String
  | .unterminatedString => "unterminated string literal"
  | .unexpectedCharacter => "unexpected character"
  | .unterminatedEscape => "unterminated escape sequence"
  | .unterminatedHeredoc => "unterminated heredoc"
  | .unexpectedToken => "unexpected token"
  | .unexpectedValue => "unexpected value"
  | .missingRoot => "missing drakon block"
  | .duplicateNode => "duplicate node id"
  | .unknownReference => "unknown reference"
  | .invalidReference => "invalid reference value"
  | .reservedBlock => "reserved block"
  | .unsupportedBlock => "unsupported block"
  | .malformedBranch => "malformed question branch"
  | .emptyBranch => "empty branch"

/-- Every code, in the order of its text. -/
def all : List Code :=
  [.unterminatedString, .unexpectedCharacter, .unterminatedEscape, .unterminatedHeredoc,
    .unexpectedToken, .unexpectedValue, .missingRoot, .duplicateNode, .unknownReference,
    .invalidReference, .reservedBlock, .unsupportedBlock, .malformedBranch, .emptyBranch]

/-- The code with a given text. -/
def ofText? (s : String) : Option Code := all.find? (·.text = s)

end Code

/-- A message at a span of the source. The primary label marks the fault, others give context. -/
structure Label where
  /-- The bytes that are pointed at. -/
  span : Span
  /-- What is said about them. -/
  message : String
  /-- Whether the fault itself is there, and not what it is at odds with. -/
  primary : Bool
  deriving DecidableEq

/-- An error or a warning, ready to be shown. -/
structure Diagnostic where
  /-- Whether it is an error. -/
  severity : Severity
  /-- The code, if the fault has one. -/
  code : Option Code
  /-- What is wrong. -/
  message : String
  /-- The places in the source that matter. -/
  labels : List Label := []
  /-- What could be done about it. -/
  help : Option String := none
  deriving DecidableEq

namespace Diagnostic

/-- An error with a primary label that carries the description of its code. -/
def errorAt (code : Code) (message : String) (span : Span) : Diagnostic :=
  { severity := .error, code, message, labels := [⟨span, code.description, true⟩] }

/-- Whether the diagnostic is an error. -/
def isError (d : Diagnostic) : Bool := d.severity == .error

/-- The diagnostic with its severity lowered to a warning. -/
def asWarning (d : Diagnostic) : Diagnostic := { d with severity := .warning }

/-- Severity, code and message in one line. -/
def display (d : Diagnostic) : String :=
  let code := match d.code with
    | some code => "[" ++ code.text ++ "]"
    | none => ""
  d.severity.word ++ code ++ ": " ++ d.message

/-- Whether there is an error among diagnostics. -/
def anyError (ds : List Diagnostic) : Bool := ds.any isError

/-- The first of several diagnostics and the number of those that follow it. -/
def summary : List Diagnostic → String
  | [] => ""
  | [d] => d.display
  | d :: ds => d.display ++ " (+" ++ toString ds.length ++ " more)"

end Diagnostic

end Flowchart
