import Mathlib.Data.List.Basic

/-!
# The grammar of JSON

What a JSON text is, rule by rule as in RFC 8259. A relation stands for each rule: `IsNumber cs` says
that `cs` is a number. Blanks may stand at both ends of a text and around the marks of an object or
an array, and nowhere else.
-/

namespace Flowchart.Json

/-- Spaces, tabs, line feeds and carriage returns. -/
def IsSpace (cs : List Char) : Prop := ∀ c ∈ cs, c = ' ' ∨ c = '\t' ∨ c = '\n' ∨ c = '\r'

/-- A mark, perhaps with blanks around it. -/
def IsMark (mark : Char) (cs : List Char) : Prop :=
  ∃ before after, IsSpace before ∧ IsSpace after ∧ cs = before ++ mark :: after

/-! ## Numbers -/

/-- One digit or more. -/
structure IsDigits (cs : List Char) : Prop where
  /-- There is at least one. -/
  ne_nil : cs ≠ []
  /-- All of them are digits. -/
  digits : ∀ c ∈ cs, c.isDigit = true

/-- The whole part of a number has no zero in front. -/
inductive IsWhole : List Char → Prop where
  /-- A zero by itself. -/
  | zero : IsWhole ['0']
  /-- Digits of which the first is none. -/
  | nonzero {c : Char} {cs : List Char} (hc : c ≠ '0') (hdigits : IsDigits (c :: cs)) :
      IsWhole (c :: cs)

/-- The fraction of a number, if it has one. -/
inductive IsFraction : List Char → Prop where
  /-- No fraction. -/
  | none : IsFraction []
  /-- A point and digits. -/
  | some {cs : List Char} (hdigits : IsDigits cs) : IsFraction ('.' :: cs)

/-- The exponent of a number, if it has one. -/
inductive IsExponent : List Char → Prop where
  /-- No exponent. -/
  | none : IsExponent []
  /-- A letter, perhaps a sign, and digits. -/
  | some {e : Char} {sign cs : List Char} (he : e = 'e' ∨ e = 'E')
      (hsign : sign = [] ∨ sign = ['-'] ∨ sign = ['+']) (hdigits : IsDigits cs) :
      IsExponent (e :: (sign ++ cs))

/-- A number. -/
inductive IsNumber : List Char → Prop where
  /-- Perhaps a minus, the whole part, and the others if there are any. -/
  | parts {sign whole fraction exponent : List Char} (hsign : sign = [] ∨ sign = ['-'])
      (hwhole : IsWhole whole) (hfraction : IsFraction fraction) (hexponent : IsExponent exponent) :
      IsNumber (sign ++ (whole ++ (fraction ++ exponent)))

/-! ## Strings -/

/-- A digit of a hexadecimal number, in either case. -/
def IsHexDigit (c : Char) : Prop := c.isDigit = true ∨ c ∈ ['a', 'b', 'c', 'd', 'e', 'f'] ∨
  c ∈ ['A', 'B', 'C', 'D', 'E', 'F']

/-- What stands for one character of a string: the character itself or an escape. -/
inductive IsCharacter : List Char → Prop where
  /-- A character that stands for itself. -/
  | plain {c : Char} (hcontrol : 0x20 ≤ c.toNat) (hquote : c ≠ '\x22') (hescape : c ≠ '\\') :
      IsCharacter [c]
  /-- A backslash and one character. -/
  | short {c : Char} (hc : c ∈ ['\x22', '\\', '/', 'b', 'f', 'n', 'r', 't']) :
      IsCharacter ['\\', c]
  /-- A backslash, a letter and four hexadecimal digits. -/
  | code {a b c d : Char} (ha : IsHexDigit a) (hb : IsHexDigit b) (hc : IsHexDigit c)
      (hd : IsHexDigit d) : IsCharacter ['\\', 'u', a, b, c, d]

/-- A string. -/
inductive IsString : List Char → Prop where
  /-- Characters between quotes. -/
  | quoted {characters : List (List Char)} (h : ∀ c ∈ characters, IsCharacter c) :
      IsString ('\x22' :: characters.flatten ++ ['\x22'])

/-! ## Values -/

/-- Texts with commas between each two. -/
inductive Listed : List (List Char) → List Char → Prop where
  /-- No texts. -/
  | none : Listed [] []
  /-- One text, without a comma. -/
  | one (cs : List Char) : Listed [cs] cs
  /-- A text, a comma, and the others. -/
  | more {cs comma rest : List Char} {texts : List (List Char)} (hcomma : IsMark ',' comma)
      (hne : texts ≠ []) (hrest : Listed texts rest) : Listed (cs :: texts) (cs ++ (comma ++ rest))

/-- A key, a colon and a value. -/
structure Member where
  /-- The key, in quotes. -/
  key : List Char
  /-- The colon with the blanks around it. -/
  colon : List Char
  /-- The value. -/
  value : List Char

/-- The text of a member. -/
def Member.text (m : Member) : List Char := m.key ++ (m.colon ++ m.value)

/-- A value. -/
inductive IsValue : List Char → Prop where
  /-- Nothing. -/
  | null : IsValue ['n', 'u', 'l', 'l']
  /-- The truth value that holds. -/
  | yes : IsValue ['t', 'r', 'u', 'e']
  /-- The truth value that does not. -/
  | no : IsValue ['f', 'a', 'l', 's', 'e']
  /-- A number. -/
  | number {cs : List Char} (h : IsNumber cs) : IsValue cs
  /-- A string. -/
  | string {cs : List Char} (h : IsString cs) : IsValue cs
  /-- Values in brackets. -/
  | array {opening inner closing : List Char} {items : List (List Char)}
      (hopening : IsMark '[' opening) (hclosing : IsMark ']' closing) (hinner : Listed items inner)
      (hitems : ∀ item ∈ items, IsValue item) : IsValue (opening ++ (inner ++ closing))
  /-- Keys with values in braces. -/
  | object {opening inner closing : List Char} {members : List Member}
      (hopening : IsMark '\x7b' opening) (hclosing : IsMark '\x7d' closing)
      (hinner : Listed (members.map Member.text) inner) (hkeys : ∀ m ∈ members, IsString m.key)
      (hcolons : ∀ m ∈ members, IsMark ':' m.colon) (hvalues : ∀ m ∈ members, IsValue m.value) :
      IsValue (opening ++ (inner ++ closing))

/-- A JSON text: one value, perhaps with blanks around it. -/
def IsText (cs : List Char) : Prop :=
  ∃ before value after, IsSpace before ∧ IsValue value ∧ IsSpace after ∧
    cs = before ++ (value ++ after)

end Flowchart.Json
