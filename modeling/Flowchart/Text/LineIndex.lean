import Flowchart.Text.Position

/-!
# Looking up lines

`Position.ofOffset` reads a text from its front on. An index of the text holds the offsets at which
its lines start: the line of an offset is found among them by bisection, and only the characters of
this one line are counted. An offset that stands inside of a character has no characters before it
that could be counted, and gets the first column.
-/

namespace Flowchart

/-- The first of the `count` numbers from `low` on at which `holds` fails, found by bisection, or the
number behind them; it has to fail behind a number at which it fails. -/
def partitionPoint (holds : Nat → Bool) (low count : Nat) : Nat :=
  if count = 0 then low
  else
    let half := count / 2
    if holds (low + half) then partitionPoint holds (low + half + 1) (count - half - 1)
    else partitionPoint holds low half
termination_by count

/-- A text with the offsets at which its lines start, in their order. -/
structure LineIndex where
  /-- The text. -/
  source : String
  /-- The offsets of the first bytes of its lines. -/
  starts : List Nat

namespace LineIndex

/-- The offsets behind the newlines of characters that stand at an offset. -/
def startsBehind (offset : Nat) : List Char → List Nat
  | [] => []
  | c :: cs =>
    let next := offset + c.utf8Size
    if c = '\n' then next :: startsBehind next cs else startsBehind next cs

/-- The index of a text. The first line starts where the text does. -/
def ofSource (source : String) : LineIndex := ⟨source, 0 :: startsBehind 0 source.toList⟩

/-- The characters before an offset, unless it stands inside of a character or behind the end. -/
def upTo? (offset : Nat) : List Char → Option (List Char)
  | [] => if offset = 0 then some [] else none
  | c :: cs =>
    if offset = 0 then some []
    else if c.utf8Size ≤ offset then (upTo? (offset - c.utf8Size) cs).map (c :: ·)
    else none

/-- The characters between two offsets. -/
def slice? (start stop : Nat) (cs : List Char) : Option (List Char) :=
  match upTo? start cs, upTo? stop cs with
  | some skipped, some front => if start ≤ stop then some (front.drop skipped.length) else none
  | _, _ => none

/-- The position of an offset; one past the end counts as the end. -/
def position (index : LineIndex) (offset : Nat) : Position :=
  let offset := min offset index.source.utf8ByteSize
  -- The line is the last one that starts at the offset or before it.
  let line := partitionPoint (index.starts.getD · 0 ≤ offset) 0 index.starts.length - 1
  let column := (slice? (index.starts.getD line 0) offset index.source.toList).map List.length
  ⟨line + 1, column.getD 0 + 1⟩

end LineIndex

end Flowchart
