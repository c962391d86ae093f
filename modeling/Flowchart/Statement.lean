import Flowchart.Span
import Flowchart.Table
import Flowchart.Text.Blank

/-!
# Statements and values

A document is a list of statements. A statement is an attribute `key = value` or a block with a
name, labels and a body of statements. A value in braces is an object when it holds attributes only;
as soon as it holds a block it keeps its statements as they are.
-/

namespace Flowchart

mutual

/-- The value of an attribute. -/
inductive Value where
  /-- Stands for a value that could not be read. -/
  | null
  /-- A text, quoted or in a heredoc, or a bare word. -/
  | text (s : String)
  /-- A number. -/
  | number (x : Float)
  /-- One of the two truth values. -/
  | truth (b : Bool)
  /-- Values in brackets. -/
  | list (items : List Value)
  /-- Values by their keys. -/
  | object (entries : List (String × Value))
  /-- A value in braces that holds at least one block. -/
  | nested (body : List Statement)

/-- One item of a document or of a block's body. -/
inductive Statement where
  /-- A key with its value, and the bytes of both. -/
  | attribute (key : String) (value : Value) (span : Span)
  /-- A name with labels and statements in braces, and the bytes of it all. -/
  | block (name : String) (labels : List String) (body : List Statement) (span : Span)

end

/-- Null is a value. -/
instance : Inhabited Value := ⟨.null⟩

/-- Values by key, in the order in which the keys were first written. -/
abbrev Attributes := Table String Value

/-- A block on its own: `name "label"* { body }`. -/
structure Block where
  /-- What kind of block it is. -/
  name : String
  /-- The texts behind the name. -/
  labels : List String
  /-- The statements in braces. -/
  body : List Statement
  /-- The bytes of the whole block. -/
  span : Span
  deriving Inhabited

namespace Value

/-- The text, if the value is one. -/
def text? : Value → Option String
  | .text s => some s
  | _ => none

/-- The text without its blank ends, if the value is a text and not blank. -/
def trimmed? (v : Value) : Option String := v.text?.bind Text.trimmed?

/-- The number, if the value is one. -/
def number? : Value → Option Float
  | .number x => some x
  | _ => none

/-- The truth value, if the value is one. -/
def truth? : Value → Option Bool
  | .truth b => some b
  | _ => none

/-- The items, if the value is a list. -/
def list? : Value → Option (List Value)
  | .list items => some items
  | _ => none

/-- The entries, if the value is an object. -/
def object? : Value → Option Attributes
  | .object entries => some entries
  | _ => none

/-- The value as a list of statements. An object or a list without content counts as one without
statements, for nothing written in it tells them apart. -/
def statements? : Value → Option (List Statement)
  | .nested body => some body
  | .object [] => some []
  | .list [] => some []
  | _ => none

end Value

namespace Statement

/-- The bytes that a statement was read from. -/
def span : Statement → Span
  | .attribute _ _ span => span
  | .block _ _ _ span => span

/-- The block, if the statement is one. -/
def block? : Statement → Option Block
  | .block name labels body span => some ⟨name, labels, body, span⟩
  | .attribute .. => none

/-- The key and the value, if the statement is an attribute. -/
def attribute? : Statement → Option (String × Value)
  | .attribute key value _ => some (key, value)
  | .block .. => none

end Statement

/-- The attributes among statements; a repeated key keeps its first place and its last value. -/
def Attributes.ofStatements (body : List Statement) : Attributes :=
  Table.ofPairs (body.filterMap Statement.attribute?)

namespace Block

/-- A block that no one wrote: it has neither a body nor a place in the source. -/
def synthetic (name : String) (label : String) : Block := ⟨name, [label], [], .nowhere⟩

/-- The first label, by which a block is known. -/
def label? (b : Block) : Option String := b.labels.head?

/-- The attributes in the body. -/
def attributes (b : Block) : Attributes := .ofStatements b.body

/-- The blocks in the body. -/
def blocks (b : Block) : List Block := b.body.filterMap Statement.block?

/-- The blocks in the body that have a given name. -/
def blocksCalled (b : Block) (name : String) : List Block := b.blocks.filter (·.name = name)

end Block

namespace Attributes

/-- The text under a key. -/
def text? (a : Attributes) (key : String) : Option String := (a.get? key).bind Value.text?

/-- The text under a key without its blank ends, if it is not blank. -/
def trimmed? (a : Attributes) (key : String) : Option String := (a.get? key).bind Value.trimmed?

/-- Whether the value under a key is the truth value `true`. -/
def flag (a : Attributes) (key : String) : Bool := ((a.get? key).bind Value.truth?).getD false

end Attributes

end Flowchart
