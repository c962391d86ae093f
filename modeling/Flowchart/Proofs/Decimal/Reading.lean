import Flowchart.Decimal.Reading
import Mathlib

/-!
# A decimal is read as a number

What is not a number comes of no decimal (`isNaN_toFloat`): rounding yields none, multiplying or
dividing by a power of ten yields none where none was, and packing into bits keeps this.
-/

namespace Flowchart.Decimal

open Float.Model (UnpackedFloat)
open Float.Model.UnpackedFloat

/-! ## Packing -/

/-- Bits say that something is not a number only by a full exponent with a mantissa. -/
theorem isNaN_unpack_packComponents {s : Sign} {exponent : BitVec 11} {mantissa : BitVec 52}
    (h : exponent ≠ -1#11 ∨ mantissa = 0#52) :
    (unpack .binary64 (packComponents .binary64 s exponent mantissa)).isNaN = false := by
  unfold unpack
  simp only [unpackExponent_packComponents, unpackMantissa_packComponents]
  by_cases hfull : exponent = -1#11
  · rw [if_pos hfull, if_pos (h.resolve_left (not_not_intro hfull))]
    rfl
  · rw [if_neg hfull]
    split
    · split
      · rfl
      · rfl
    · rfl

/-- A number is packed as a number. -/
theorem isNaN_pack {f : UnpackedFloat} (h : f.isNaN = false) :
    (Float.Model.pack f).unpack.isNaN = false := by
  show (unpack .binary64 (pack .binary64 f)).isNaN = false
  cases f with
  | notANumber => exact nomatch h
  | infinity s => exact isNaN_unpack_packComponents (.inr rfl)
  | zero s => exact isNaN_unpack_packComponents (.inr rfl)
  | finite s m e hm =>
    simp only [pack]
    split
    · exact isNaN_unpack_packComponents (.inr rfl)
    · rename_i hlt
      split
      · refine isNaN_unpack_packComponents (.inl fun hfull => ?_)
        have hbits := congrArg BitVec.toNat hfull
        rw [BitVec.toNat_ofNat] at hbits
        simp at hbits hlt
        omega
      · exact isNaN_unpack_packComponents (.inl (by decide))

/-! ## Rounding -/

/-- Rounding gives a number. -/
theorem isNaN_roundWithAccuracy (s : Sign) (m : ℕ) (e : ℤ) (accuracy : Accuracy) :
    (roundWithAccuracy .binary64 s m e accuracy).isNaN = false := by
  unfold roundWithAccuracy
  dsimp only
  split
  · rfl
  · rfl

/-- Shifting a mantissa into place and rounding it gives a number. -/
theorem isNaN_normalize (m e : ℤ) (s : Sign) : (UnpackedFloat.normalize .binary64 m e s).isNaN = false := by
  unfold UnpackedFloat.normalize
  split
  · exact isNaN_roundWithAccuracy ..
  · rfl
  · exact isNaN_roundWithAccuracy ..

/-- Whether a number is neither zero nor infinite. -/
def isSolid : UnpackedFloat → Bool
  | .finite .. => true
  | _ => false

variable {a b : UnpackedFloat}

/-- A number times a solid one is a number. -/
theorem isNaN_mul (ha : a.isNaN = false) (hb : isSolid b = true) :
    (UnpackedFloat.mul .binary64 a b).isNaN = false := by
  cases b with
  | finite s m e hm =>
    cases a with
    | notANumber => exact nomatch ha
    | infinity => rfl
    | zero => rfl
    | finite => exact isNaN_roundWithAccuracy ..
  | _ => exact nomatch hb

/-- A number by a solid one is a number. -/
theorem isNaN_div (ha : a.isNaN = false) (hb : isSolid b = true) :
    (UnpackedFloat.div .binary64 a b).isNaN = false := by
  cases b with
  | finite s m e hm =>
    cases a with
    | notANumber => exact nomatch ha
    | infinity => rfl
    | zero => rfl
    | finite => exact isNaN_roundWithAccuracy ..
  | _ => exact nomatch hb

/-- The negative of a number is a number. -/
theorem isNaN_neg (ha : a.isNaN = false) : a.neg.isNaN = false := by
  cases a with
  | notANumber => exact nomatch ha
  | _ => rfl

/-- A decimal that is rounded once is a number. -/
theorem isNaN_ofScientific (m : ℕ) (e : ℤ) :
    (UnpackedFloat.ofScientific .binary64 m e).isNaN = false := by
  unfold UnpackedFloat.ofScientific
  split
  · rfl
  split
  · rfl
  split
  · rfl
  split
  · exact isNaN_mul rfl rfl
  · exact isNaN_div rfl rfl

/-- The powers of ten that are exact are solid. -/
theorem isSolid_powerOfTen : ∀ e : Fin 23,
    isSolid Float.exactlyRepresentablePowersOfTen[e].toModel.unpack = true := by
  decide +kernel

/-! ## Reading -/

/-- Every decimal is read as a number, either way of reading it. -/
theorem isNaN_floatOfScientific (m : ℕ) (negative : Bool) (e : ℕ) :
    (Float.ofScientific m negative e).isNaN = false := by
  unfold Float.ofScientific
  split
  · rename_i h
    have hwhole : m.toUInt64.toFloat.toModel.unpack.isNaN = false :=
      isNaN_pack (isNaN_normalize ..)
    have hpower := isSolid_powerOfTen ⟨e, by omega⟩
    dsimp only
    split
    · exact isNaN_pack (isNaN_div hwhole hpower)
    · exact isNaN_pack (isNaN_mul hwhole hpower)
  · exact isNaN_pack (isNaN_ofScientific ..)

/-- The double nearest to a numeral is a number. -/
theorem isNaN_nearest (n : ℕ) (place : ℤ) : (nearest n place).isNaN = false := by
  unfold nearest
  dsimp only
  split
  · decide
  split
  · decide
  · exact isNaN_floatOfScientific ..

/-- **A decimal is read as a number.** -/
theorem isNaN_toFloat (negative : Bool) (whole fraction : List Char) (exponent : ℤ) :
    (toFloat negative whole fraction exponent).isNaN = false := by
  unfold toFloat
  dsimp only
  split
  · exact isNaN_pack (isNaN_neg (isNaN_nearest ..))
  · exact isNaN_nearest ..

/-- What is a number is finite unless it is infinite. -/
theorem isFinite_iff_of_isNaN {x : Float} (h : x.isNaN = false) :
    x.isFinite = true ↔ x.isInf = false := by
  have hnan : x.toModel.unpack.isNaN = false := h
  show x.toModel.unpack.isFinite = true ↔ x.toModel.unpack.isInf = false
  cases hx : x.toModel.unpack with
  | notANumber =>
    rw [hx] at hnan
    cases hnan
  | infinity s => exact ⟨Bool.noConfusion, Bool.noConfusion⟩
  | zero s => exact ⟨fun _ => rfl, fun _ => rfl⟩
  | finite s m e hm => exact ⟨fun _ => rfl, fun _ => rfl⟩

end Flowchart.Decimal
