import Flowchart.Text.Blank

/-!
# Common indentation

Multi-line text is written indented to the depth of the block it stands in. `stripIndent` removes
the indentation that all lines with content share, and `normalize` also removes carriage returns and
the blank lines at both ends.
-/

namespace Flowchart.Text

/-- The number of blank characters a line starts with. -/
def indentOf (line : List Char) : Nat := (line.takeWhile isBlank).length

/-- The smallest indentation among the lines that are not blank, zero when all of them are. -/
def commonIndent (lines : List (List Char)) : Nat :=
  (((lines.filter (! isBlankText ·)).map indentOf).min?).getD 0

/-- Removes the common indentation from every line; a blank line becomes empty. -/
def stripIndent (lines : List (List Char)) : List (List Char) :=
  let indent := commonIndent lines
  lines.map fun line => if isBlankText line then [] else line.drop indent

/-- The lines between the first and the last one that is not blank, both included. -/
def trimLines (lines : List (List Char)) : List (List Char) :=
  ((lines.dropWhile isBlankText).reverse.dropWhile isBlankText).reverse

/-- Drops carriage returns, the blank lines at both ends and the common indentation. -/
def normalizeChars (cs : List Char) : List Char :=
  joinLines (stripIndent (trimLines (lines (cs.filter (· != '\r')))))

/-- A multi-line text in its normal form. -/
def normalize (s : String) : String := String.ofList (normalizeChars s.toList)

end Flowchart.Text
