import Flowchart.Decimal.Reading
import Flowchart.Settings
import Flowchart.Text.Blank

/-!
# Plain values in settings

Texts, numbers and truth values as TOML writes them on one line. Digits may have an underscore
between each two of them. A whole number has no zeros in front, unless it is written in base two,
eight or sixteen; a number with a point has digits on either side of it.
-/

namespace Flowchart.Settings

/-- A character that may stand in a text or a comment: anything but control characters, tabs
apart. -/
def isWritable (c : Char) : Bool := c == '\t' || (0x20 ≤ c.toNat && c.toNat != 0x7f)

/-! ## Digits -/

/-- The number that a digit stands for, if it is one in a base of up to sixteen. -/
def digit? (base : Nat) (c : Char) : Option Nat :=
  let small := c.toLower
  -- The letters start with ten.
  let value := if small.isDigit then c.toNat - 48 else small.toNat - 87
  if (small.isDigit || ('a' ≤ small && small ≤ 'f')) && value < base then some value else none

/-- The number that digits of a base stand for. -/
def numeral? (base : Nat) (digits : List Char) : Option Nat :=
  digits.foldlM (fun n c => (digit? base c).map (base * n + ·)) 0

/-- Digits without the underscores between them; an underscore needs a digit on either side. -/
def plainDigits? (base : Nat) (cs : List Char) : Option (List Char) :=
  let runs := Text.split (· == '_') cs
  if runs.all fun run => !run.isEmpty && run.all fun c => (digit? base c).isSome then
    some runs.flatten
  else none

/-- Whether digits have no zero in front that could be left out. -/
def hasNoIdleZero (digits : List Char) : Bool := digits.length == 1 || digits.head? != some '0'

/-! ## Texts -/

/-- The character with a code of `count` hexadecimal digits. -/
def codeChar? (digits : List Char) (count : Nat) : Option Char :=
  if digits.length = count then
    (numeral? 16 digits).bind fun n => if n.isValidChar then some (Char.ofNat n) else none
  else none

/-- The inside of a text in double quotes, and what follows it. -/
def basicString? : List Char → Option (List Char × List Char)
  | [] => none
  | '\x22' :: cs => some ([], cs)
  | '\\' :: e :: cs =>
    let simple (c : Char) := (basicString? cs).map fun (text, rest) => (c :: text, rest)
    let coded (count : Nat) := do
      let c ← codeChar? (cs.take count) count
      let (text, rest) ← basicString? (cs.drop count)
      pure (c :: text, rest)
    match e with
    | 'b' => simple '\x08'
    | 't' => simple '\t'
    | 'n' => simple '\n'
    | 'f' => simple '\x0c'
    | 'r' => simple '\r'
    | 'e' => simple '\x1b'
    | '\x22' => simple e
    | '\\' => simple e
    | 'x' => coded 2
    | 'u' => coded 4
    | 'U' => coded 8
    | _ => none
  | c :: cs =>
    if isWritable c then (basicString? cs).map fun (text, rest) => (c :: text, rest) else none
termination_by cs => cs.length

/-- The inside of a text in single quotes, and what follows it. -/
def literalString? (cs : List Char) : Option (List Char × List Char) :=
  (Text.splitOnce '\x27' cs).filter fun (text, _) => text.all isWritable

/-- A text in quotes of either kind, and what follows it. -/
def quoted? : List Char → Option (String × List Char)
  | '\x22' :: cs => (basicString? cs).map fun (text, rest) => (String.ofList text, rest)
  | '\x27' :: cs => (literalString? cs).map fun (text, rest) => (String.ofList text, rest)
  | _ => none

/-! ## Numbers -/

/-- Whether a whole number fits into so many bits, one of them for the sign if it is negative. -/
def fitsBits (bits : Nat) (n : Int) : Bool :=
  if n < 0 then n.natAbs ≤ Nat.pow 2 (bits - 1) else n.natAbs < Nat.pow 2 bits

/-- The setting of a whole number. One of up to 64 bits is a number; one of up to 128 bits is valid,
but nothing can be set to it. -/
def ofInteger? (n : Int) : Option Setting :=
  if fitsBits 64 n then
    let size := Float32.ofNat n.natAbs
    some (.number (if n < 0 then -size else size))
  else if fitsBits 128 n then some .other
  else none

/-- A whole number in base ten, its sign apart. -/
def integer? (negative : Bool) (body : List Char) : Option Setting := do
  let digits ← plainDigits? 10 body
  let n : Int := Decimal.digitsValue digits
  if hasNoIdleZero digits then ofInteger? (if negative then -n else n) else none

/-- A whole number in another base; it has no sign. -/
def based? (base : Nat) (body : List Char) : Option Setting := do
  let n ← numeral? base (← plainDigits? base body)
  ofInteger? n

/-- A number with a point or a power of ten, its sign apart. One beyond all doubles is refused. -/
def fractional? (negative : Bool) (body : List Char) : Option Setting := do
  let size := body.takeWhile fun c => c != 'e' && c != 'E'
  let whole := size.takeWhile (· != '.')
  let wholeDigits ← plainDigits? 10 whole
  let fraction ← match size.drop whole.length with
    | [] => some []
    | _ :: digits => plainDigits? 10 digits
  let exponent ← match body.drop size.length with
    | [] => some 0
    | _ :: written =>
      let (below, digits) := Decimal.readSign written
      (plainDigits? 10 digits).map fun digits =>
        let n : Int := Decimal.digitsValue digits
        if below then -n else n
  let x := Decimal.toFloat negative wholeDigits fraction exponent
  if hasNoIdleZero wholeDigits && x.isFinite then pure (.number x.toFloat32) else none

/-- The setting of a word: a number, an infinity, what is not a number, or a truth value. -/
def word? (word : List Char) : Option Setting :=
  match word with
  | ['t', 'r', 'u', 'e'] | ['f', 'a', 'l', 's', 'e'] => some .other
  -- Only numbers in base ten have a sign.
  | '0' :: 'x' :: body => based? 16 body
  | '0' :: 'o' :: body => based? 8 body
  | '0' :: 'b' :: body => based? 2 body
  | _ =>
    match Decimal.readSign word with
    | (negative, ['i', 'n', 'f']) => some (.number (if negative then -1 / 0 else 1 / 0))
    | (_, ['n', 'a', 'n']) => some (.number (0 / 0))
    | (negative, body) =>
      if body.any fun c => c == '.' || c == 'e' || c == 'E' then fractional? negative body
      else integer? negative body

/-- A character of a key without quotes; a word has signs and points besides. -/
def isBareKey (c : Char) : Bool := c.isAlphanum || c == '_' || c == '-'

/-- A plain value, and what follows it. -/
def plainValue? (cs : List Char) : Option (Setting × List Char) :=
  match quoted? cs with
  | some (text, rest) => some (.text text, rest)
  | none =>
    let word := cs.takeWhile fun c => isBareKey c || c == '+' || c == '.'
    (word? word).map fun value => (value, cs.drop word.length)

end Flowchart.Settings
