import Flowchart.Decimal.Text

/-!
# TOML values

The values of a TOML document as they are written in a report. A text takes the plainest of the
four kinds of string that can hold it; which one that is depends on the control characters,
backslashes, quotes and newlines in it.
-/

namespace Flowchart.Toml

/-- A control character other than a tab and a newline. -/
def isControl (c : Char) : Bool :=
  (c.toNat < 0x20 && c != '\t' && c != '\n') || c.toNat == 0x7f

/-- A character that needs no thought in any kind of string. -/
def isPlain (c : Char) : Bool :=
  c.isAlphanum || c == '-' || c == '_' || c == '.' || c == '/' || c == ':' || c == ' '

/-- The length of the longest run of a character; `run` is the length of the run so far. -/
def longestRun (mark : Char) (run : Nat) : List Char → Nat
  | [] => run
  | c :: cs => if c = mark then longestRun mark (run + 1) cs else max run (longestRun mark 0 cs)

/-- A code unit of four upper-case hexadecimal digits. -/
def hexCode (n : Nat) : List Char :=
  [n / 4096, n / 256, n / 16, n].map fun k => (Nat.digitChar (k % 16)).toUpper

/-- A character of a basic string, quotes apart. A newline stands for itself between triple
quotes. -/
def escapeChar (triple : Bool) (c : Char) : List Char :=
  if c = '\x08' then ['\\', 'b']
  else if c = '\t' then ['\\', 't']
  else if c = '\x0c' then ['\\', 'f']
  else if c = '\r' then ['\\', 'r']
  else if c = '\\' then ['\\', '\\']
  else if c = '\n' then if triple then [c] else ['\\', 'n']
  else if isControl c then '\\' :: 'u' :: hexCode c.toNat
  else [c]

/-- The inside of a basic string. Between triple quotes only every third quote of a run is escaped;
`run` counts the quotes since the last one that was. -/
def escape (triple : Bool) (run : Nat) : List Char → List Char
  | [] => []
  | c :: cs =>
    if c = '\x22' then
      if triple && run < 2 then c :: escape triple (run + 1) cs
      else '\\' :: c :: escape triple 0 cs
    else escapeChar triple c ++ escape triple 0 cs

/-- A text between two equal quotes. -/
def quoted (quote : List Char) (inside : List Char) : List Char := quote ++ inside ++ quote

/-- A text between triple quotes. A newline follows the opening ones if the text has any. -/
def tripled (mark : Char) (text inside : List Char) : List Char :=
  let quote := [mark, mark, mark]
  quote ++ (if text.contains '\n' then ['\n'] else []) ++ inside ++ quote

/-- A text as a string of TOML. -/
def stringChars (text : List Char) : List Char :=
  let control := text.any isControl
  let newline := text.contains '\n'
  let backslash := text.contains '\\'
  let double := '\x22'
  let single := '\x27'
  -- The kinds are tried from the plainest on; the last two can hold any text.
  if text.all isPlain then quoted [double] text
  else if !control && !backslash && !text.contains double && !newline then
    quoted [double] (escape false 0 text)
  else if !control && !text.contains single && !newline then quoted [single] text
  else if !control && !backslash && longestRun double 0 text ≤ 2 then
    tripled double text (escape true 0 text)
  else if !control && longestRun single 0 text ≤ 2 then tripled single text text
  else if newline then tripled double text (escape true 0 text)
  else quoted [double] (escape false 0 text)

/-- A text as a string of TOML. -/
def string (text : String) : String := String.ofList (stringChars text.toList)

/-- A truth value. -/
def bool (b : Bool) : String := if b then "true" else "false"

/-- A list of texts: on one line up to one item, else with one item a line. -/
def strings (texts : List String) : String :=
  match texts with
  | [] => "[]"
  | [text] => "[" ++ string text ++ "]"
  | _ => "[\n" ++ String.join (texts.map fun text => "    " ++ string text ++ ",\n") ++ "]"

/-- A line that sets a key. -/
def line (key value : String) : String := key ++ " = " ++ value ++ "\n"

/-- A table with its header, a blank line above it. -/
def table (header : String) (lines : List String) : String :=
  "\n" ++ header ++ "\n" ++ String.join lines

end Flowchart.Toml
