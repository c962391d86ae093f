import Flowchart.Text.Blank

/-!
# Wrapping labels

A label keeps its line breaks. Each of its lines is filled with words from the left as long as the
result fits; a word that does not fit on a line of its own is cut into pieces, each the longest
front part of what remains that bisection finds to fit.

What fits is a parameter, so everything here holds for any way of measuring text and any limit.
-/

namespace Flowchart.Wrap

/-- The greatest of the `count` numbers from `low` on that bisection finds to fit, else `best`. -/
def bisect (fits : Nat → Bool) (low count best : Nat) : Nat :=
  if count = 0 then best
  else
    let below := (count - 1) / 2
    if fits (low + below) then bisect fits (low + below + 1) (count - 1 - below) (low + below)
    else bisect fits low below best
termination_by count

/-- Cuts a word into pieces. A piece has at least one character, even if that one does not fit. -/
def pieces (fits : List Char → Bool) : List Char → List (List Char)
  | [] => []
  | c :: cs =>
    -- A single character is found without a test, so the word gets shorter with every piece.
    let length := bisect (fun n => fits ((c :: cs).take n)) 1 (cs.length + 1) 1
    (c :: cs.take (length - 1)) :: pieces fits (cs.drop (length - 1))
termination_by cs => cs.length

/-- Fills lines with words; `current` is the line that the next word may still go to. After a word
that had to be cut, a new line starts. -/
def fill (fits : List Char → Bool) : Option (List Char) → List (List Char) → List (List Char)
  | current, [] => current.toList
  | none, word :: words =>
    if fits word then fill fits (some word) words
    else pieces fits word ++ fill fits none words
  | some line, word :: words =>
    -- The word goes to the line, or to the next one, or is cut behind the line.
    if fits (line ++ ' ' :: word) then fill fits (some (line ++ ' ' :: word)) words
    else if fits word then line :: fill fits (some word) words
    else line :: (pieces fits word ++ fill fits none words)

/-- Wraps one line of a label; a line without words stays as one empty line. -/
def wrapLine (fits : List Char → Bool) (line : List Char) : List (List Char) :=
  match fill fits none (Text.words line) with
  | [] => [[]]
  | lines => lines

/-- Wraps a label. -/
def wrapChars (fits : List Char → Bool) (label : List Char) : List (List Char) :=
  (Text.lines label).flatMap fun line => wrapLine fits (Text.dropReturn line)

end Flowchart.Wrap

namespace Flowchart

/-- Gives the width of a text on one line. -/
abbrev Measure := List Char → Float32

/-- Every character has the same width. -/
def Measure.fixed (charWidth : Float32) : Measure :=
  fun cs => Float32.ofNat cs.length * charWidth

/-- Whether a text is at most as wide as a limit. -/
def Measure.fits (measure : Measure) (limit : Float32) (cs : List Char) : Bool :=
  measure cs ≤ limit

/-- Wraps a label into lines that are not wider than a limit; a single character may be. -/
def wrap (measure : Measure) (limit : Float32) (label : String) : List String :=
  (Wrap.wrapChars (measure.fits limit) label.toList).map String.ofList

end Flowchart
