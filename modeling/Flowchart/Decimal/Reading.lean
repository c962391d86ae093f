/-!
# Reading decimals

A decimal is a sign, digits before and after a point, and a power of ten. It is read as the double
nearest to it, ties to the even significand; what is too great becomes infinite.
-/

namespace Flowchart.Decimal

/-- The number that a run of decimal digits stands for. -/
def digitsValue (cs : List Char) : Nat :=
  cs.foldl (fun n c => 10 * n + (c.toNat - 48)) 0

/-- The double nearest to `n · 10 ^ place`. With `10 ^ top` as the least power of ten above it, it
is beyond all doubles when `top` exceeds 309, and below half of the least one when `top` is less
than -323; no power of ten has to be worked out then. -/
def nearest (n : Nat) (place : Int) : Float :=
  let top := place + (Nat.toDigits 10 n).length
  if n = 0 || top < -323 then 0
  else if 309 < top then 1 / 0
  else Float.ofScientific n (place < 0) place.natAbs

/-- The double nearest to a decimal given by its parts. -/
def toFloat (negative : Bool) (whole fraction : List Char) (exponent : Int) : Float :=
  let size := nearest (digitsValue (whole ++ fraction)) (exponent - fraction.length)
  if negative then -size else size

/-- The sign at the front of a text, and what follows it. -/
def readSign : List Char → Bool × List Char
  | '-' :: cs => (true, cs)
  | '+' :: cs => (false, cs)
  | cs => (false, cs)

/-- A power of ten at the end of a decimal; nothing at all stands for zero. -/
def readExponent? (cs : List Char) : Option Int :=
  match cs with
  | [] => some 0
  | e :: cs =>
    let (negative, digits) := readSign cs
    if (e == 'e' || e == 'E') && !digits.isEmpty && digits.all Char.isDigit then
      let size : Int := digitsValue digits
      some (if negative then -size else size)
    else none

/-- A decimal without sign: digits, perhaps a point and more digits, perhaps an exponent. One of the
two digit runs may be empty. -/
def readUnsigned? (negative : Bool) (cs : List Char) : Option Float :=
  let whole := cs.takeWhile Char.isDigit
  let rest := cs.dropWhile Char.isDigit
  let (fraction, rest) := match rest with
    | '.' :: rest => (rest.takeWhile Char.isDigit, rest.dropWhile Char.isDigit)
    | rest => ([], rest)
  -- A point alone is no number.
  if whole.isEmpty && fraction.isEmpty then none
  else (readExponent? rest).map (toFloat negative whole fraction)

/-- Reads a decimal, an infinity or the word for what is not a number. -/
def read? (s : String) : Option Float :=
  let (negative, body) := readSign s.toList
  let word := String.ofList (body.map Char.toLower)
  if word = "inf" || word = "infinity" then some (if negative then -1.0 / 0.0 else 1.0 / 0.0)
  else if word = "nan" then some (0.0 / 0.0)
  else readUnsigned? negative body

end Flowchart.Decimal
