import Flowchart.Decimal.Text
import Flowchart.Statement

/-!
# Values as text

`Value.json` writes a value as JSON. Statements kept inside a value become a list: an attribute is
an object with one entry, a block is its name. `Value.display` writes texts as they stand and the
items of a list with commas between them, and falls back on JSON for what is in braces.
-/

namespace Flowchart

/-- A character inside a JSON string. -/
def jsonChar (c : Char) : List Char :=
  if c = '\x22' then ['\\', '\x22']
  else if c = '\\' then ['\\', '\\']
  else if c = '\n' then ['\\', 'n']
  else if c = '\r' then ['\\', 'r']
  else if c = '\t' then ['\\', 't']
  else if c.toNat < 0x20 then
    ['\\', 'u', '0', '0', Nat.digitChar (c.toNat / 16), Nat.digitChar (c.toNat % 16)]
  else [c]

/-- A JSON string. -/
def jsonString (s : String) : List Char := '\x22' :: s.toList.flatMap jsonChar ++ ['\x22']

namespace Value

mutual

/-- The characters of a value's JSON text. -/
def jsonChars : Value → List Char
  | .null => ['n', 'u', 'l', 'l']
  | .text s => jsonString s
  | .number x => (Decimal.Binary.ofFloat x).text .plain
  | .truth b => if b then ['t', 'r', 'u', 'e'] else ['f', 'a', 'l', 's', 'e']
  | .list items => '[' :: jsonItems items ++ [']']
  | .object entries => '\x7b' :: jsonEntries entries ++ ['\x7d']
  | .nested body => '[' :: jsonBody body ++ [']']
termination_by structural v => v

/-- The items of a list, with commas between them. -/
def jsonItems : List Value → List Char
  | [] => []
  | [v] => v.jsonChars
  | v :: w :: vs => v.jsonChars ++ ',' :: jsonItems (w :: vs)
termination_by structural vs => vs

/-- The entries of an object, with commas between them. -/
def jsonEntries : List (String × Value) → List Char
  | [] => []
  | [(k, v)] => jsonString k ++ ':' :: v.jsonChars
  | (k, v) :: e :: es => jsonString k ++ ':' :: v.jsonChars ++ ',' :: jsonEntries (e :: es)
termination_by structural es => es

/-- One statement kept inside a value. -/
def jsonStatement : Statement → List Char
  | .attribute k v _ => '\x7b' :: jsonString k ++ ':' :: v.jsonChars ++ ['\x7d']
  | .block name _ _ _ => jsonString name
termination_by structural s => s

/-- The statements kept inside a value, with commas between them. -/
def jsonBody : List Statement → List Char
  | [] => []
  | [s] => jsonStatement s
  | s :: t :: ss => jsonStatement s ++ ',' :: jsonBody (t :: ss)
termination_by structural ss => ss

end

/-- The value as JSON text. -/
def json (v : Value) : String := String.ofList v.jsonChars

mutual

/-- The characters of a value's plain text. -/
def displayChars : Value → List Char
  | .text s => s.toList
  | .list items => displayItems items
  | v => v.jsonChars
termination_by structural v => v

/-- The plain texts of items, with commas between them. -/
def displayItems : List Value → List Char
  | [] => []
  | [v] => v.displayChars
  | v :: w :: vs => v.displayChars ++ ',' :: displayItems (w :: vs)
termination_by structural vs => vs

end

/-- The value as plain text. -/
def display (v : Value) : String := String.ofList v.displayChars

end Value

end Flowchart
