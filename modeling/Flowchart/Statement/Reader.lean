import Flowchart.Diagnostic
import Flowchart.Statement
import Flowchart.Token

/-!
# Reading tokens into statements

The grammar of a document, with lexemes as its letters:

    document  = item*
    item      = NAME '=' value | NAME TEXT* block
    block     = open item* close
    value     = TEXT | NUMBER | NAME | array | braces
    array     = '[' (value ',')* value? ']'
    braces    = open (item ','?)* close

A lexeme that does not fit is reported and left out, and reading goes on behind it, so one pass
finds every fault. The end of the source is never passed. A `Reading` carries the proof that it left
no more lexemes than it was given; this is why the mutual recursion ends.
-/

namespace Flowchart

/-- What can be wrong with a lexeme. -/
inductive SyntaxFault where
  /-- A lexeme of this class has to stand here. -/
  | expected (wanted : TokenClass)
  /-- No item of the document starts here. -/
  | strayInDocument
  /-- No item of the block with this name starts here. -/
  | strayInBlock (name : String)
  /-- No value starts here. -/
  | notAValue
  deriving DecidableEq

/-- A fault with the lexeme at which it was found; `none` when the lexemes had run out. -/
structure SyntaxProblem where
  /-- What is wrong. -/
  fault : SyntaxFault
  /-- The lexeme at which it was found. -/
  found : Option Lexeme
  deriving DecidableEq

namespace SyntaxProblem

/-- The lexeme as the message quotes it. -/
def quoted (p : SyntaxProblem) : String := (p.found.map (·.token.display)).getD "EOF"

/-- The line that the message gives; zero when the lexemes had run out. -/
def line (p : SyntaxProblem) : Nat := (p.found.map (·.position.line)).getD 0

/-- The column that the message gives; zero when the lexemes had run out. -/
def column (p : SyntaxProblem) : Nat := (p.found.map (·.position.column)).getD 0

/-- The bytes at which the fault was found. -/
def span (p : SyntaxProblem) : Span := (p.found.map Lexeme.span).getD .nowhere

/-- The code of the fault. -/
def code (p : SyntaxProblem) : Code :=
  match p.fault with
  | .notAValue => .unexpectedValue
  | _ => .unexpectedToken

/-- The message about the fault. -/
def message (p : SyntaxProblem) : String :=
  match p.fault with
  | .expected wanted =>
    "Unexpected token \"" ++ p.quoted ++ "\" at line " ++ toString p.line ++ ". Expected " ++
      wanted.word ++ "."
  | .strayInDocument =>
    "Unexpected token \"" ++ p.quoted ++ "\" at line " ++ toString p.line ++ "."
  | .strayInBlock name => "Unexpected token \"" ++ p.quoted ++ "\" in block \"" ++ name ++ "\"."
  | .notAValue =>
    "Unexpected value \"" ++ p.quoted ++ "\" at line " ++ toString p.line ++ ", column " ++
      toString p.column ++ "."

/-- How to mend the fault. -/
def help (p : SyntaxProblem) : Option String :=
  match p.fault with
  | .strayInDocument => some "top-level statements start with an identifier"
  | .notAValue =>
    some "values are strings, numbers, identifiers, `[...]` or `\x7b...\x7d`"
  | _ => none

/-- The problem as a diagnostic. -/
def diagnostic (p : SyntaxProblem) : Diagnostic :=
  { Diagnostic.errorAt p.code p.message p.span with help := p.help }

end SyntaxProblem

/-- A lexeme that is the end of the source. -/
def Lexeme.isEnd (l : Lexeme) : Bool := l.token == .finish

namespace Reader

/-- What has been read, the bytes of the lexeme consumed last, the lexemes left over, and the
problems found on the way. -/
structure Reading (α : Type) (n : Nat) where
  /-- What has been read. -/
  value : α
  /-- The bytes of the lexeme that was consumed last. -/
  last : Span
  /-- The lexemes left over. -/
  rest : List Lexeme
  /-- What was wrong on the way. -/
  problems : List SyntaxProblem
  /-- No more lexemes are left than there were. -/
  rest_le : rest.length ≤ n

/-- A reading bounded by a smaller number is bounded by a greater one. -/
def Reading.weaken {α : Type} {m n : Nat} (r : Reading α m) (h : m ≤ n) : Reading α n :=
  { r with rest_le := Nat.le_trans r.rest_le h }

/-- Consumes a lexeme of the wanted class. Anything else is a problem; it is consumed as well,
unless it is the end. -/
def expect (wanted : TokenClass) (last : Span) : (ls : List Lexeme) → Reading Unit ls.length
  | [] => ⟨(), last, [], [⟨.expected wanted, none⟩], Nat.le_refl _⟩
  | l :: ls =>
    if l.token.tokenClass = wanted then ⟨(), l.span, ls, [], Nat.le_succ _⟩
    -- The end is left where it is, so whatever is still open is reported there, too.
    else if l.isEnd then ⟨(), last, l :: ls, [⟨.expected wanted, some l⟩], Nat.le_refl _⟩
    else ⟨(), l.span, ls, [⟨.expected wanted, some l⟩], Nat.le_succ _⟩

/-- The texts at the front of a list of lexemes: the labels of a block. -/
def labels : (ls : List Lexeme) → (last : Span) → Reading (List String) ls.length
  | [], last => ⟨[], last, [], [], Nat.le_refl _⟩
  | l :: ls, last =>
    match l.token with
    | .text s =>
      let r := labels ls l.span
      ⟨s :: r.value, r.last, r.rest, r.problems, Nat.le_succ_of_le r.rest_le⟩
    | _ => ⟨[], last, l :: ls, [], Nat.le_refl _⟩

/-- The value that a single token is: a bare name is a text, except for the two truth values. -/
def scalar? : Token → Option Value
  | .text s => some (.text s)
  | .number x => some (.number x)
  | .name "true" => some (.truth true)
  | .name "false" => some (.truth false)
  | .name s => some (.text s)
  | _ => none

/-- The value that the statements in braces make up. -/
def braced (body : List Statement) : Value :=
  if body.any (·.block?.isSome) then .nested body else .object (Attributes.ofStatements body)

mutual

/-- Reads an item that starts with the name `first`. -/
def item (first : Lexeme) (name : String) (ls : List Lexeme) : Reading Statement ls.length :=
  match ls with
  | [] => (block first name []).weaken (Nat.le_refl _)
  | l :: rest =>
    -- One token behind the name decides between the two kinds of items.
    if l.token = .equals then
      let r := valueIn l.span rest
      ⟨.attribute name r.value (first.span.union r.last), r.last, r.rest, r.problems,
        Nat.le_succ_of_le r.rest_le⟩
    else block first name (l :: rest)
termination_by 3 * ls.length + 2

/-- Reads the labels and the body of a block. -/
def block (first : Lexeme) (name : String) (ls : List Lexeme) : Reading Statement ls.length :=
  match labels ls first.span with
  | ⟨texts, last, afterLabels, _, h₁⟩ =>
    match expect .openBrace last afterLabels with
    | ⟨_, last, afterOpen, openProblems, h₂⟩ =>
      match body name last afterOpen with
      | ⟨statements, last, afterBody, bodyProblems, h₃⟩ =>
        match expect .closeBrace last afterBody with
        | ⟨_, last, rest, closeProblems, h₄⟩ =>
          ⟨.block name texts statements (first.span.union last), last, rest,
            openProblems ++ bodyProblems ++ closeProblems, by omega⟩
termination_by 3 * ls.length + 1
decreasing_by all_goals omega

/-- Reads the items of the block called `name` up to its closing brace or the end. -/
def body (name : String) (last : Span) (ls : List Lexeme) :
    Reading (List Statement) ls.length :=
  match ls with
  | [] => ⟨[], last, [], [], Nat.le_refl _⟩
  | l :: rest =>
    match l.token with
    -- The brace is consumed by the block, which expects it.
    | .closeBrace | .finish => ⟨[], last, l :: rest, [], Nat.le_refl _⟩
    | .name s =>
      match item l s rest with
      | ⟨statement, last, afterItem, problems, h⟩ =>
        let r := body name last afterItem
        ⟨statement :: r.value, r.last, r.rest, problems ++ r.problems,
          Nat.le_succ_of_le (Nat.le_trans r.rest_le h)⟩
    | _ =>
      let r := body name l.span rest
      ⟨r.value, r.last, r.rest, ⟨.strayInBlock name, some l⟩ :: r.problems,
        Nat.le_succ_of_le r.rest_le⟩
termination_by 3 * ls.length
decreasing_by all_goals (simp only [List.length_cons]; omega)

/-- Reads a value, if there is a lexeme before the end. -/
def valueIn (last : Span) (ls : List Lexeme) : Reading Value ls.length :=
  match ls with
  | [] => ⟨.null, last, [], [⟨.notAValue, none⟩], Nat.le_refl _⟩
  | l :: rest =>
    if l.isEnd then ⟨.null, last, l :: rest, [⟨.notAValue, some l⟩], Nat.le_refl _⟩
    else (value l rest).weaken (Nat.le_succ _)
termination_by 3 * ls.length

/-- Reads a value that starts with the lexeme `first`, which is not the end. -/
def value (first : Lexeme) (ls : List Lexeme) : Reading Value ls.length :=
  match scalar? first.token with
  | some scalar => ⟨scalar, first.span, ls, [], Nat.le_refl _⟩
  | none =>
    match first.token with
    | .openBracket =>
      match items first.span ls with
      | ⟨values, last, afterItems, itemProblems, h₁⟩ =>
        match expect .closeBracket last afterItems with
        | ⟨_, last, rest, closeProblems, h₂⟩ =>
          ⟨.list values, last, rest, itemProblems ++ closeProblems, Nat.le_trans h₂ h₁⟩
    | .openBrace =>
      match fields first.span ls with
      | ⟨statements, last, afterFields, fieldProblems, h₁⟩ =>
        match expect .closeBrace last afterFields with
        | ⟨_, last, rest, closeProblems, h₂⟩ =>
          ⟨braced statements, last, rest, fieldProblems ++ closeProblems, Nat.le_trans h₂ h₁⟩
    -- The lexeme that is no value has been consumed by whoever asked for one.
    | _ => ⟨.null, first.span, ls, [⟨.notAValue, some first⟩], Nat.le_refl _⟩
termination_by 3 * ls.length + 1

/-- Reads the values of an array. A value that no comma follows is the last one. -/
def items (last : Span) (ls : List Lexeme) : Reading (List Value) ls.length :=
  match ls with
  | [] => ⟨[], last, [], [], Nat.le_refl _⟩
  | l :: rest =>
    if l.token = .closeBracket ∨ l.isEnd then ⟨[], last, l :: rest, [], Nat.le_refl _⟩
    else
      match value l rest with
      | ⟨v, last, [], problems, _⟩ => ⟨[v], last, [], problems, Nat.zero_le _⟩
      | ⟨v, last, comma :: afterComma, problems, h⟩ =>
        if comma.token = .comma then
          let r := items comma.span afterComma
          ⟨v :: r.value, r.last, r.rest, problems ++ r.problems, by
            have := r.rest_le; simp only [List.length_cons] at h ⊢; omega⟩
        else ⟨[v], last, comma :: afterComma, problems, Nat.le_succ_of_le h⟩
termination_by 3 * ls.length
decreasing_by all_goals (simp only [List.length_cons] at *; omega)

/-- Reads the items in braces. A comma may follow each of them. -/
def fields (last : Span) (ls : List Lexeme) : Reading (List Statement) ls.length :=
  match ls with
  | [] => ⟨[], last, [], [], Nat.le_refl _⟩
  | l :: rest =>
    match l.token with
    | .closeBrace | .finish => ⟨[], last, l :: rest, [], Nat.le_refl _⟩
    | .name s =>
      match item l s rest with
      | ⟨statement, last, [], problems, _⟩ => ⟨[statement], last, [], problems, Nat.zero_le _⟩
      | ⟨statement, last, comma :: afterComma, problems, h⟩ =>
        if comma.token = .comma then
          let r := fields comma.span afterComma
          ⟨statement :: r.value, r.last, r.rest, problems ++ r.problems, by
            have := r.rest_le; simp only [List.length_cons] at h ⊢; omega⟩
        else
          let r := fields last (comma :: afterComma)
          ⟨statement :: r.value, r.last, r.rest, problems ++ r.problems, by
            have := r.rest_le; simp only [List.length_cons] at h this ⊢; omega⟩
    | _ =>
      let r := fields l.span rest
      ⟨r.value, r.last, r.rest, ⟨.expected .name, some l⟩ :: r.problems,
        Nat.le_succ_of_le r.rest_le⟩
termination_by 3 * ls.length
decreasing_by all_goals (simp only [List.length_cons] at *; omega)

end

/-- Reads the items of a document up to its end. -/
def document (ls : List Lexeme) : List Statement × List SyntaxProblem :=
  match ls with
  | [] => ([], [])
  | l :: rest =>
    match l.token with
    | .finish => ([], [])
    | .name s =>
      match item l s rest with
      | ⟨statement, _, afterItem, problems, _⟩ =>
        let (statements, later) := document afterItem
        (statement :: statements, problems ++ later)
    | _ =>
      let (statements, later) := document rest
      (statements, ⟨.strayInDocument, some l⟩ :: later)
termination_by ls.length

end Reader

end Flowchart
