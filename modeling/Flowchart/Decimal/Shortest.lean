import Flowchart.Decimal.Binary

/-!
# The shortest decimal that reads back

The reals that round to a binary number form an interval around it, ends included when its
significand is even. The shortest decimal in that interval is a multiple of the greatest power of
ten that has a multiple there. The search goes through the powers downwards and stops at the latest
where the number itself is a multiple.
-/

namespace Flowchart.Decimal

/-- A magnitude with the ends of its rounding interval, all in quarters of `2 ^ exponent`. -/
structure Interval where
  /-- The lower end. -/
  low : Nat
  /-- The magnitude itself. -/
  value : Nat
  /-- The upper end. -/
  high : Nat
  /-- Whether the ends belong to the interval. -/
  closed : Bool
  /-- The exponent of the unit. -/
  exponent : Int

/-- The rounding interval of `significand · 2 ^ exponent`. -/
def Interval.around (significand : Nat) (exponent : Int) (narrowBelow : Bool) : Interval where
  low := 4 * significand - if narrowBelow then 1 else 2
  value := 4 * significand
  high := 4 * significand + 2
  closed := significand % 2 == 0
  exponent := exponent - 2

/-- A natural number `t` stands for `t · 10 ^ place`, and a number `n` of an interval for
`n · 2 ^ exponent`; these are the factors that bring both to a common measure. -/
def Interval.measures (i : Interval) (place : Int) : Nat × Nat :=
  (Nat.pow 10 place.toNat * Nat.pow 2 (-i.exponent).toNat,
    Nat.pow 2 i.exponent.toNat * Nat.pow 10 (-place).toNat)

/-- Whether `t · 10 ^ place` lies in the interval. -/
def Interval.contains (i : Interval) (place : Int) (t : Nat) : Bool :=
  let (unit, scale) := i.measures place
  if i.closed then i.low * scale ≤ t * unit && t * unit ≤ i.high * scale
  else i.low * scale < t * unit && t * unit < i.high * scale

/-- The greatest multiple of `10 ^ place` that does not exceed the value. -/
def Interval.floorAt (i : Interval) (place : Int) : Nat :=
  let (unit, scale) := i.measures place
  i.value * scale / unit

/-- The multiple of `10 ^ place` in the interval that is nearest to the value, if there is one; of
two equally near ones, the greater. -/
def Interval.nearestAt? (i : Interval) (place : Int) : Option Nat :=
  let (unit, scale) := i.measures place
  let below := i.floorAt place
  let above := below + 1
  match i.contains place below, i.contains place above with
  | false, false => none
  | true, false => some below
  | false, true => some above
  | true, true =>
    some (if 2 * (i.value * scale) < (below + above) * unit then below else above)

/-- The first power of ten, from `10 ^ (lowest + steps)` downwards, with a multiple in the interval;
gives that multiple and the power. At `10 ^ lowest` the value itself is taken. -/
def Interval.search (i : Interval) (lowest : Int) : Nat → Nat × Int
  | 0 => (i.floorAt lowest, lowest)
  | steps + 1 =>
    match i.nearestAt? (lowest + (steps + 1 : Nat)) with
    | some t => (t, lowest + (steps + 1 : Nat))
    | none => i.search lowest steps

/-- The digits and the power of ten of the shortest decimal that reads back as
`significand · 2 ^ exponent`, the nearest one if there are several. -/
def shortest (significand : Nat) (exponent : Int) (narrowBelow : Bool) : Nat × Int :=
  let i := Interval.around significand exponent narrowBelow
  let lowest := min exponent 0
  let whole := (4 * significand + 2) * Nat.pow 2 i.exponent.toNat / Nat.pow 2 (-i.exponent).toNat
  -- The upper end has so many digits that no greater power has a multiple below it.
  i.search lowest ((Nat.toDigits 10 whole).length - lowest).toNat

end Flowchart.Decimal
