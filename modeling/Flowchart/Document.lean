import Flowchart.Draft.Build
import Flowchart.Statement.Reader
import Flowchart.Token.Lexer

/-!
# Documents

Reading a source takes three steps, from characters to tokens, from tokens to statements and from
statements to the diagram. Each step goes on despite faults, so the outcome has the diagnostics of
all of them, in this order.
-/

namespace Flowchart

/-- What has come of a source. -/
structure Document where
  /-- The statements, whatever was wrong among them. -/
  statements : List Statement
  /-- The diagram, unless there is no root to build. -/
  diagram : Option Diagram
  /-- What was found to be wrong, in the order of the stages. -/
  diagnostics : List Diagnostic

namespace Document

/-- Reads a source. -/
def read (source : String) : Document :=
  let scan := Lexer.scan source
  let (statements, syntaxProblems) := Reader.document scan.lexemes
  let (diagram, buildProblems) := Diagram.build statements
  { statements
    diagram
    diagnostics :=
      scan.problems.map LexicalProblem.diagnostic ++
        syntaxProblems.map SyntaxProblem.diagnostic ++ buildProblems.map BuildProblem.diagnostic }

/-- Whether any step found an error. -/
def hasErrors (d : Document) : Bool := Diagnostic.anyError d.diagnostics

/-- The diagram of a document without errors; otherwise its diagnostics. -/
def diagram? (d : Document) : Except (List Diagnostic) Diagram :=
  match d.hasErrors, d.diagram with
  | false, some diagram => .ok diagram
  | _, _ => .error d.diagnostics

end Document

end Flowchart
