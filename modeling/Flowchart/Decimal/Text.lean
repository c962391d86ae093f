import Flowchart.Decimal.Shortest

/-!
# Decimal text

Numbers are written in positional notation with the fewest digits that read back, filled up with
zeros; there is never an exponent. A style settles what is written for a whole number and for what
is not a number.
-/

namespace Flowchart.Decimal

/-- What the two uses of decimal text differ in. -/
structure Style where
  /-- What follows the digits of a whole number. -/
  wholeEnd : List Char
  /-- The word for what is not a number. -/
  notANumber : List Char

/-- Numbers in messages, labels and values: nothing follows a whole number. -/
def Style.plain : Style := ⟨[], ['N', 'a', 'N']⟩

/-- Numbers in documents whose format tells whole numbers from fractions. -/
def Style.pointed : Style := ⟨['.', '0'], ['n', 'a', 'n']⟩

/-- The digits of `digits · 10 ^ place` in positional notation. -/
def positional (wholeEnd : List Char) (digits : Nat) (place : Int) : List Char :=
  let written := Nat.toDigits 10 digits
  let places := (-place).toNat
  -- The point stands behind the digits, among them or in front of them.
  if places = 0 then written ++ List.replicate place.toNat '0' ++ wholeEnd
  else if places < written.length then
    written.take (written.length - places) ++ '.' :: written.drop (written.length - places)
  else '0' :: '.' :: List.replicate (places - written.length) '0' ++ written

/-- The text of a magnitude. -/
def magnitude (style : Style) (significand : Nat) (exponent : Int) (narrowBelow : Bool) :
    List Char :=
  if significand = 0 then '0' :: style.wholeEnd
  else
    let (digits, place) := shortest significand exponent narrowBelow
    positional style.wholeEnd digits place

/-- The text of a number; the sign of zero is written too. -/
def Binary.text (style : Style) : Binary → List Char
  | .notANumber => style.notANumber
  | .infinite negative => signed negative ['i', 'n', 'f']
  | .finite negative significand exponent narrowBelow =>
    signed negative (magnitude style significand exponent narrowBelow)
where
  signed (negative : Bool) (cs : List Char) : List Char := if negative then '-' :: cs else cs

/-- The plain text of a double. -/
def ofFloat (x : Float) : String := String.ofList ((Binary.ofFloat x).text .plain)

/-- The plain text of a single. -/
def ofFloat32 (x : Float32) : String := String.ofList ((Binary.ofFloat32 x).text .plain)

/-- The text of a single in a document that tells whole numbers from fractions. -/
def pointedOfFloat32 (x : Float32) : String := String.ofList ((Binary.ofFloat32 x).text .pointed)

end Flowchart.Decimal
