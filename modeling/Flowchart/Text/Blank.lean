/-!
# Blank characters, lines and words

A character is blank when it has the Unicode property `White_Space`. This module holds that table
and what the rest of the library builds on it: trimming, splitting a text at given characters, its
lines and its words.
-/

namespace Flowchart.Text

/-- The code points with the property `White_Space`, as ten inclusive ranges. -/
def blankRanges : List (Nat × Nat) :=
  [(0x09, 0x0D), (0x20, 0x20), (0x85, 0x85), (0xA0, 0xA0), (0x1680, 0x1680), (0x2000, 0x200A),
    (0x2028, 0x2029), (0x202F, 0x202F), (0x205F, 0x205F), (0x3000, 0x3000)]

/-- A character is blank when its code point lies in one of the ranges. -/
def isBlank (c : Char) : Bool :=
  blankRanges.any fun (low, high) => low ≤ c.toNat && c.toNat ≤ high

/-- A text without its blank characters at the front. -/
def trimLeft (cs : List Char) : List Char := cs.dropWhile isBlank

/-- A text without its blank characters at the back. -/
def trimRight (cs : List Char) : List Char := (cs.reverse.dropWhile isBlank).reverse

/-- A text without its blank characters at either end. -/
def trimChars (cs : List Char) : List Char := trimRight (trimLeft cs)

/-- A string without its blank characters at either end. -/
def trim (s : String) : String := String.ofList (trimChars s.toList)

/-- A text is blank when all of its characters are. -/
def isBlankText (cs : List Char) : Bool := cs.all isBlank

/-- The string without its blank ends, unless nothing is left of it. -/
def trimmed? (s : String) : Option String :=
  let inner := trim s
  if inner.isEmpty then none else some inner

/-- Adds a character to the front of the first piece. -/
def consToFirst (c : Char) : List (List Char) → List (List Char)
  | [] => [[c]]
  | piece :: pieces => (c :: piece) :: pieces

/-- The pieces of a text between the characters that `cut` selects; there is always one more piece
than there are such characters. -/
def split (cut : Char → Bool) : List Char → List (List Char)
  | [] => [[]]
  | c :: cs => if cut c then [] :: split cut cs else consToFirst c (split cut cs)

/-- The lines of a text: the pieces between newlines. -/
def lines (cs : List Char) : List (List Char) := split (· == '\n') cs

/-- The words of a text: its maximal runs of characters that are not blank. -/
def words (cs : List Char) : List (List Char) := (split isBlank cs).filter (! ·.isEmpty)

/-- A line without one carriage return at its end. -/
def dropReturn (cs : List Char) : List Char :=
  if cs.getLast? = some '\r' then cs.dropLast else cs

/-- Lines put together with a newline between each two. -/
def joinLines (lines : List (List Char)) : List Char := (lines.intersperse ['\n']).flatten

/-- The part of a text before the first `mark` and the part after it. -/
def splitOnce (mark : Char) (cs : List Char) : Option (List Char × List Char) :=
  match cs.dropWhile (· != mark) with
  | [] => none
  | _ :: after => some (cs.takeWhile (· != mark), after)

end Flowchart.Text
