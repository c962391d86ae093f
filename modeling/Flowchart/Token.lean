import Flowchart.Decimal.Text
import Flowchart.Span
import Flowchart.Text.Position

/-!
# Tokens

A token is a name, a text, a number or a punctuation mark; the end of the source is a token too. A
lexeme is a token with its place.
-/

namespace Flowchart

/-- The classes of tokens, as messages name them. -/
inductive TokenClass where
  /-- A bare word. -/
  | name
  /-- A text, quoted or in a heredoc. -/
  | text
  /-- A number. -/
  | number
  /-- What opens a block. -/
  | openBrace
  /-- What closes a block. -/
  | closeBrace
  /-- What opens a list. -/
  | openBracket
  /-- What closes a list. -/
  | closeBracket
  /-- What stands between a key and its value. -/
  | equals
  /-- What stands between values. -/
  | comma
  /-- The end of the source. -/
  | finish
  deriving DecidableEq

/-- The word for a class. -/
def TokenClass.word : TokenClass → String
  | .name => "identifier"
  | .text => "string"
  | .number => "number"
  | .openBrace => "brace_open"
  | .closeBrace => "brace_close"
  | .openBracket => "bracket_open"
  | .closeBracket => "bracket_close"
  | .equals => "equals"
  | .comma => "comma"
  | .finish => "eof"

/-- A token of the source. -/
inductive Token where
  /-- A bare word. -/
  | name (s : String)
  /-- A quoted text or a heredoc, its escapes resolved. -/
  | text (s : String)
  /-- A number, with its sign. -/
  | number (x : Float)
  /-- What opens a block. -/
  | openBrace
  /-- What closes a block. -/
  | closeBrace
  /-- What opens a list. -/
  | openBracket
  /-- What closes a list. -/
  | closeBracket
  /-- What stands between a key and its value. -/
  | equals
  /-- What stands between values. -/
  | comma
  /-- The end of the source. -/
  | finish
  deriving DecidableEq

namespace Token

/-- The class of a token. -/
def tokenClass : Token → TokenClass
  | .name _ => .name
  | .text _ => .text
  | .number _ => .number
  | .openBrace => .openBrace
  | .closeBrace => .closeBrace
  | .openBracket => .openBracket
  | .closeBracket => .closeBracket
  | .equals => .equals
  | .comma => .comma
  | .finish => .finish

/-- A token as messages quote it. -/
def display : Token → String
  | .name s => s
  | .text s => s
  | .number x => Decimal.ofFloat x
  | .openBrace => "\x7b"
  | .closeBrace => "\x7d"
  | .openBracket => "["
  | .closeBracket => "]"
  | .equals => "="
  | .comma => ","
  | .finish => "EOF"

end Token

/-- A token, the bytes it was read from and the position of the first of them. -/
structure Lexeme where
  /-- What it means. -/
  token : Token
  /-- The bytes that it is made of. -/
  span : Span
  /-- The line and the column where it starts. -/
  position : Position
  deriving DecidableEq

end Flowchart
