/-!
# Lines and columns

A position counts lines and columns from one; a column counts characters, not bytes. Reading a text
moves a position forward one character at a time, and `Position.ofOffset` is the position that a
byte offset has reached.
-/

namespace Flowchart

/-- A line and a column in it, both counted from one. -/
structure Position where
  /-- The number of the line. -/
  line : Nat := 1
  /-- The number of the character in its line. -/
  column : Nat := 1
  deriving DecidableEq, Inhabited

namespace Position

/-- The position after one more character: a newline starts the next line. -/
def step (p : Position) (c : Char) : Position :=
  if c = '\n' then ⟨p.line + 1, 1⟩ else ⟨p.line, p.column + 1⟩

/-- The position after reading a text. -/
def after (p : Position) (cs : List Char) : Position := cs.foldl step p

/-- The characters of a text that end at or before a byte offset. -/
def charsBefore : Nat → List Char → List Char
  | _, [] => []
  | offset, c :: cs =>
    if c.utf8Size ≤ offset then c :: charsBefore (offset - c.utf8Size) cs else []

/-- The position of a byte offset in a text; an offset past the end counts as the end. -/
def ofOffset (source : List Char) (offset : Nat) : Position :=
  ({} : Position).after (charsBefore offset source)

end Position

end Flowchart
