/-!
# Binary floating-point numbers, taken apart

A finite binary number is a sign and a magnitude `significand · 2 ^ exponent`. Exact decimal work is
done on these natural numbers and not on the machine type. A format is given by the widths of its
two fields, so one definition serves both precisions.
-/

namespace Flowchart.Decimal

/-- The widths of the two fields that follow the sign bit. -/
structure Format where
  /-- The number of bits of the exponent. -/
  exponentBits : Nat
  /-- The number of bits of the mantissa that are stored. -/
  fractionBits : Nat

/-- Single precision. -/
def Format.single : Format := ⟨8, 23⟩

/-- Double precision. -/
def Format.double : Format := ⟨11, 52⟩

/-- What the bits of a floating-point number say. In a finite number, `narrowBelow` says that the
gap to the next smaller magnitude is half of the gap to the next greater one. -/
inductive Binary where
  /-- No number. -/
  | notANumber
  /-- An infinity. -/
  | infinite (negative : Bool)
  /-- The number `significand · 2 ^ exponent` with its sign; `narrowBelow` says that the next
  smaller number is only half as far away as the next greater one. -/
  | finite (negative : Bool) (significand : Nat) (exponent : Int) (narrowBelow : Bool)
  deriving DecidableEq

/-- Takes the bits of a number apart. An exponent field of zero has no hidden bit, and one of all
ones is kept for the infinities and for what is not a number. -/
def Binary.ofBits (format : Format) (bits : Nat) : Binary :=
  let hidden := Nat.pow 2 format.fractionBits
  let fields := Nat.pow 2 format.exponentBits
  let fraction := bits % hidden
  let field := bits / hidden % fields
  let negative := bits / (hidden * fields) % 2 == 1
  let lowest : Int := 2 - (fields / 2 : Nat) - format.fractionBits
  if field = fields - 1 then
    if fraction = 0 then .infinite negative else .notANumber
  else if field = 0 then
    .finite negative fraction lowest false
  else
    .finite negative (hidden + fraction) (lowest + field - 1)
      (fraction == 0 && field > 1)

/-- The parts of a double. -/
def Binary.ofFloat (x : Float) : Binary := .ofBits .double x.toBits.toNat

/-- The parts of a single. -/
def Binary.ofFloat32 (x : Float32) : Binary := .ofBits .single x.toBits.toNat

/-- The natural number that a binary number is, if it is one; zero may have either sign. -/
def Binary.whole? : Binary → Option Nat
  | .finite negative significand exponent _ =>
    if significand = 0 then some 0
    else if negative then none
    else if 0 ≤ exponent then some (significand * Nat.pow 2 exponent.toNat)
    else if significand % Nat.pow 2 (-exponent).toNat = 0 then
      some (significand / Nat.pow 2 (-exponent).toNat)
    else none
  | _ => none

end Flowchart.Decimal
