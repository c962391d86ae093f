import Flowchart.Decimal.Reading
import Flowchart.Diagnostic
import Flowchart.Text.Indent
import Flowchart.Token

/-!
# Reading characters into tokens

`Lexer.front` looks at the front of a text that is not empty and says what stands there and how many
characters belong to it. `Lexer.scan` takes one such piece after the other until the text is used
up. A piece has at least one character, so the scan ends; blanks and comments make no token, and a
fault makes a problem and no token.
-/

namespace Flowchart

/-- What can be wrong with the characters of a source. -/
inductive LexicalFault where
  /-- The source ends inside a text that this character opened. -/
  | unterminatedString (quote : Char)
  /-- The source ends right after a backslash inside a text. -/
  | unterminatedEscape
  /-- The source ends before the closing line of a heredoc. -/
  | unterminatedHeredoc (marker : String)
  /-- No token starts with this character. -/
  | unexpectedCharacter (c : Char)
  deriving DecidableEq

/-- A fault with the bytes it covers and the positions at which they start and end. -/
structure LexicalProblem where
  /-- What is wrong. -/
  fault : LexicalFault
  /-- The bytes that are at fault. -/
  span : Span
  /-- Where they start. -/
  start : Position
  /-- Where they stop. -/
  stop : Position
  deriving DecidableEq

namespace LexicalProblem

/-- The code of the fault. -/
def code (p : LexicalProblem) : Code :=
  match p.fault with
  | .unterminatedString _ => .unterminatedString
  | .unterminatedEscape => .unterminatedEscape
  | .unterminatedHeredoc _ => .unterminatedHeredoc
  | .unexpectedCharacter _ => .unexpectedCharacter

/-- The message about the fault. A broken escape is reported where the source ends, everything else
where it starts. -/
def message (p : LexicalProblem) : String :=
  match p.fault with
  | .unterminatedString _ =>
    "Unterminated string starting at line " ++ toString p.start.line ++ "."
  | .unterminatedEscape => "Unterminated escape sequence at line " ++ toString p.stop.line ++ "."
  | .unterminatedHeredoc marker =>
    "Unterminated heredoc \"" ++ marker ++ "\" starting at line " ++ toString p.start.line ++ "."
  | .unexpectedCharacter c =>
    "Unexpected character \"" ++ c.toString ++ "\" at line " ++ toString p.start.line ++
      ", column " ++ toString p.start.column ++ "."

/-- How to mend the fault. -/
def help (p : LexicalProblem) : Option String :=
  match p.fault with
  | .unterminatedString quote => some ("add closing `" ++ quote.toString ++ "`")
  | .unterminatedEscape => some "complete the escape and close the string"
  | .unterminatedHeredoc _ => some "close the heredoc with a line containing only its marker"
  | .unexpectedCharacter _ => none

/-- The problem as a diagnostic. -/
def diagnostic (p : LexicalProblem) : Diagnostic :=
  { Diagnostic.errorAt p.code p.message p.span with help := p.help }

end LexicalProblem

namespace Lexer

/-- What stands at the front of a text. -/
inductive Piece where
  /-- Blanks or a comment. -/
  | trivia
  /-- A token. -/
  | token (t : Token)
  /-- Something that is no token. -/
  | fault (f : LexicalFault)

/-- A name starts with an ASCII letter, an underscore or a dash. -/
def startsName (c : Char) : Bool := c.isAlpha || c == '_' || c == '-'

/-- A name goes on with ASCII letters, digits and a few marks. -/
def continuesName (c : Char) : Bool :=
  c.isAlphanum || c == '_' || c == '-' || c == '.' || c == '/' || c == '?' || c == '@'

/-- A heredoc's marker is made of ASCII letters, digits and underscores. -/
def continuesMarker (c : Char) : Bool := c.isAlphanum || c == '_'

/-- The mark of one character that is a token by itself. -/
def punctuation? (c : Char) : Option Token :=
  if c = '\x7b' then some .openBrace
  else if c = '\x7d' then some .closeBrace
  else if c = '[' then some .openBracket
  else if c = ']' then some .closeBracket
  else if c = '=' then some .equals
  else if c = ',' then some .comma
  else none

/-- The character that an escape stands for: `n` and `t` are a newline and a tab, any other
character is itself. -/
def unescape (c : Char) : Char := if c = 'n' then '\n' else if c = 't' then '\t' else c

/-- The inside of a quoted text. -/
inductive Quoted where
  /-- The text is closed; `length` counts its characters, the closing quote included. -/
  | closed (value : List Char) (length : Nat)
  /-- The text ends before its quote does. -/
  | unclosed
  /-- The text ends behind a backslash. -/
  | brokenEscape

/-- One more character of the inside, written with `length` characters. -/
def Quoted.push (c : Char) (length : Nat) : Quoted → Quoted
  | .closed value rest => .closed (c :: value) (length + rest)
  | q => q

/-- Reads what follows an opening quote. -/
def quoted (quote : Char) : List Char → Quoted
  | [] => .unclosed
  -- A backslash has to be looked at before the quote that it may escape.
  | ['\\'] => .brokenEscape
  | '\\' :: c :: cs => (quoted quote cs).push (unescape c) 2
  | c :: cs => if c = quote then .closed [] 1 else (quoted quote cs).push c 1

/-- The lines of a heredoc that follow, each with its newline in front, up to the closing line; and
the number of characters in all of them, the closing line included. The closing line is the first
one that holds only the marker and blanks. -/
def heredocLines (marker : List Char) : List Char → Option (List (List Char) × Nat)
  | [] => none
  -- The character in front is the newline that ends the line before.
  | _ :: cs =>
    let written := cs.takeWhile (· != '\n')
    let line := Text.dropReturn written
    if Text.trimChars line = marker then some ([], written.length + 1)
    else
      match heredocLines marker (cs.drop written.length) with
      | some (lines, length) => some (line :: lines, length + (written.length + 1))
      | none => none
termination_by cs => cs.length

/-- Reads a heredoc that opens with `<<`, perhaps a mark that asks to strip the common indentation,
and its marker. The rest of the opening line has no meaning. -/
def heredoc? : List Char → Option (Piece × Nat)
  -- The first of the two signs has been read.
  | '<' :: cs =>
    let strips := cs.head? == some '-' || cs.head? == some '~'
    let afterMark := if strips then cs.drop 1 else cs
    let marker := afterMark.takeWhile continuesMarker
    if marker.isEmpty then none
    else
      let opening := (afterMark.takeWhile (· != '\n')).length + if strips then 2 else 1
      match heredocLines marker (cs.drop (opening - 1)) with
      -- What is not closed takes the rest of the source.
      | none => some (.fault (.unterminatedHeredoc (String.ofList marker)), cs.length + 1)
      | some (lines, length) =>
        let content := if strips then Text.stripIndent lines else lines
        some (.token (.text (String.ofList (Text.joinLines content))), opening + length)
  | _ => none

/-- Reads digits with perhaps a point and more digits, after a sign has been read. -/
def unsigned? (negative : Bool) (cs : List Char) : Option (Float × Nat) :=
  let whole := cs.takeWhile Char.isDigit
  if whole.isEmpty then none
  else
    match cs.drop whole.length with
    | '.' :: rest =>
      let fraction := rest.takeWhile Char.isDigit
      -- A point without a digit behind it does not belong to the number.
      if fraction.isEmpty then some (Decimal.toFloat negative whole [] 0, whole.length)
      else some (Decimal.toFloat negative whole fraction 0, whole.length + 1 + fraction.length)
    | _ => some (Decimal.toFloat negative whole [] 0, whole.length)

/-- Reads a number at the front of a text, and the number of its characters. -/
def number? (c : Char) (cs : List Char) : Option (Float × Nat) :=
  if c = '-' then (unsigned? true cs).map fun (x, length) => (x, length + 1)
  else unsigned? false (c :: cs)

/-- Whether a comment starts here: `#` or two slashes. -/
def startsComment (c : Char) (cs : List Char) : Bool :=
  c == '#' || (c == '/' && cs.head? == some '/')

/-- What stands at the front of the text `c :: cs`, and how many characters after `c` belong to
it. A dash before a digit starts a number and not a name. -/
def front (c : Char) (cs : List Char) : Piece × Nat :=
  if Text.isBlank c then (.trivia, (cs.takeWhile Text.isBlank).length)
  else if startsComment c cs then (.trivia, (cs.takeWhile (· != '\n')).length)
  else if c = '\x22' || c = '\x27' then
    match quoted c cs with
    | .closed value length => (.token (.text (String.ofList value)), length)
    | .unclosed => (.fault (.unterminatedString c), cs.length)
    | .brokenEscape => (.fault .unterminatedEscape, cs.length)
  else
    match if c = '<' then heredoc? cs else none with
    | some heredoc => heredoc
    | none =>
      -- Names may start with a dash, so numbers have to be tried before them.
      match number? c cs with
      | some (x, length) => (.token (.number x), length - 1)
      | none =>
        if startsName c then
          let more := cs.takeWhile continuesName
          (.token (.name (String.ofList (c :: more))), more.length)
        else
          match punctuation? c with
          | some token => (.token token, 0)
          | none => (.fault (.unexpectedCharacter c), 0)

/-- A place in the source: the bytes before it and its position. -/
structure Place where
  /-- How many bytes stand in front. -/
  offset : Nat := 0
  /-- The line and the column. -/
  position : Position := {}

/-- The number of bytes of a text. -/
def byteLength : List Char → Nat
  | [] => 0
  | c :: cs => c.utf8Size + byteLength cs

/-- The place after reading a text. -/
def Place.after (p : Place) (cs : List Char) : Place :=
  ⟨p.offset + byteLength cs, p.position.after cs⟩

/-- Lexemes and problems, both in the order of the source. -/
structure Scan where
  /-- The tokens, in order. -/
  lexemes : List Lexeme
  /-- What could not be read, in order. -/
  problems : List LexicalProblem

/-- Reads a text that stands at a place of the source. -/
def scanFrom (place : Place) : List Char → Scan
  | [] => ⟨[⟨.finish, Span.point place.offset, place.position⟩], []⟩
  | c :: cs =>
    let (piece, more) := front c cs
    let next := place.after (c :: cs.take more)
    let span := Span.between place.offset next.offset
    let rest := scanFrom next (cs.drop more)
    match piece with
    | .trivia => rest
    | .token token => { rest with lexemes := ⟨token, span, place.position⟩ :: rest.lexemes }
    | .fault fault =>
      { rest with problems := ⟨fault, span, place.position, next.position⟩ :: rest.problems }
termination_by cs => cs.length

/-- Reads a source into lexemes, the last of which is its end. -/
def scan (source : String) : Scan := scanFrom {} source.toList

end Lexer

end Flowchart
