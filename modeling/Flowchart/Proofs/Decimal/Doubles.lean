import Flowchart.Proofs.Decimal.Numerals
import Mathlib

/-!
# The text of doubles

The parts into which a double is taken apart are those of the machine's number (`ofFloat_eq`), and
they fit the format (`of_ofFloat`). So the text of a double tells it from all others
(`text_ofFloat_inj`), and the text of a finite one is a number of JSON (`isNumber_of_isFinite`).
-/

namespace Flowchart.Decimal.Binary

open Float.Model (UnpackedFloat)
open Float.Model.UnpackedFloat

/-! ## The fields of a double -/

section

variable (b : BitVec Float.Model.Format.binary64.numBits)

/-- The mantissa is made of the last 52 bits. -/
theorem toNat_unpackMantissa : (@unpackMantissa .binary64 b).toNat = b.toNat % 2 ^ 52 := by
  rw [unpackMantissa_def, BitVec.extractLsb'_toNat]
  rfl

/-- The exponent is made of the eleven bits before the mantissa. -/
theorem toNat_unpackExponent : (@unpackExponent .binary64 b).toNat = b.toNat / 2 ^ 52 % 2048 := by
  rw [unpackExponent_def, BitVec.extractLsb'_toNat, Nat.shiftRight_eq_div_pow]
  rfl

/-- The sign is the first bit. -/
theorem toNat_unpackSign : (@unpackSign .binary64 b).toNat = b.toNat / 2 ^ 63 % 2 := by
  rw [unpackSign_def, BitVec.extractLsb'_toNat, Nat.shiftRight_eq_div_pow]
  rfl

/-- What the three fields of a double say. -/
theorem ofBits_double_eq (n : ℕ) : ofBits .double n =
    if n / 2 ^ 52 % 2048 = 2047 then
      if n % 2 ^ 52 = 0 then .infinite (n / 2 ^ 63 % 2 == 1) else .notANumber
    else if n / 2 ^ 52 % 2048 = 0 then
      .finite (n / 2 ^ 63 % 2 == 1) (n % 2 ^ 52) (-1074) false
    else
      .finite (n / 2 ^ 63 % 2 == 1) (2 ^ 52 + n % 2 ^ 52) (-1074 + (n / 2 ^ 52 % 2048 : ℕ) - 1)
        (n % 2 ^ 52 == 0 && decide (n / 2 ^ 52 % 2048 > 1)) := rfl

/-- The parts of a double fit its format. -/
theorem of_ofBits (n : ℕ) : (ofBits .double n).Of (2 ^ 52) (-1074) := by
  have hlt : n % 2 ^ 52 < 2 ^ 52 := Nat.mod_lt _ (by norm_num)
  rw [ofBits_double_eq]
  split
  · split <;> exact trivial
  · split
    · exact ⟨by omega, le_rfl, .inr rfl, by simp⟩
    · refine ⟨by omega, by omega, .inl (Nat.le_add_right _ _), ?_⟩
      rw [Bool.and_eq_true, beq_iff_eq, decide_eq_true_iff]
      omega

/-- Whether a sign is that of the negative numbers. -/
def isMinus : Sign → Bool
  | .negative => true
  | .positive => false

/-- The parts of a number of the machine. -/
def ofUnpacked : UnpackedFloat → Binary
  | .infinity s => .infinite (isMinus s)
  | .notANumber => .notANumber
  | .zero s => .finite (isMinus s) 0 (-1074) false
  | .finite s m e _ => .finite (isMinus s) m e (m == 2 ^ 52 && decide (-1074 < e))

/-- A finite number keeps its sign, mantissa and exponent; on the edge of two exponents the step
below is smaller. -/
theorem ofUnpacked_finite {s : Sign} {m m' : ℕ} {e e' : ℤ} {hm : 0 < m} (hm' : m = m')
    (he' : e = e') : ofUnpacked (.finite s m e hm) =
      .finite (isMinus s) m' e' (m' == 2 ^ 52 && decide (-1074 < e')) := by
  rw [ofUnpacked, hm', he']

/-- Bits are taken apart as the machine does it. -/
theorem ofBits_double : ofBits .double b.toNat = ofUnpacked (unpack .binary64 b) := by
  have hsign : (b.toNat / 2 ^ 63 % 2 == 1) = isMinus (.ofBitVec (@unpackSign .binary64 b)) := by
    rw [← toNat_unpackSign]
    generalize @unpackSign .binary64 b = s
    revert s
    decide
  have hfull : @unpackExponent .binary64 b = -1#_ ↔ b.toNat / 2 ^ 52 % 2048 = 2047 := by
    rw [← toNat_unpackExponent, ← BitVec.toNat_inj]
    rfl
  have hleast : @unpackExponent .binary64 b = 0#_ ↔ b.toNat / 2 ^ 52 % 2048 = 0 := by
    rw [← toNat_unpackExponent, ← BitVec.toNat_inj]
    rfl
  have hnone : @unpackMantissa .binary64 b = 0#_ ↔ b.toNat % 2 ^ 52 = 0 := by
    rw [← toNat_unpackMantissa, ← BitVec.toNat_inj]
    rfl
  rw [ofBits_double_eq, hsign]
  unfold unpack
  dsimp only
  by_cases h : b.toNat / 2 ^ 52 % 2048 = 2047
  · rw [if_pos h, if_pos (hfull.mpr h)]
    -- All bits of the exponent are set: an infinity or no number.
    by_cases h' : b.toNat % 2 ^ 52 = 0
    · rw [if_pos h', if_pos (hnone.mpr h')]
      rfl
    · rw [if_neg h', if_neg (mt hnone.mp h')]
      rfl
  · rw [if_neg h, if_neg (mt hfull.mp h)]
    by_cases h' : b.toNat / 2 ^ 52 % 2048 = 0
    · rw [if_pos h', if_pos (hleast.mpr h')]
      -- No bit of the exponent is set: zero, or a mantissa without the hidden bit.
      by_cases h'' : b.toNat % 2 ^ 52 = 0
      · rw [h'', dif_pos (hnone.mpr h'')]
        rfl
      · rw [dif_neg (mt hnone.mp h'')]
        have hexponent : ((@unpackExponent .binary64 b).toNat : ℤ) - (1023 + 52) + 1 = -1074 := by
          rw [toNat_unpackExponent, h']
          rfl
        refine Eq.trans ?_ (ofUnpacked_finite (toNat_unpackMantissa b) hexponent).symm
        rw [decide_eq_false (lt_irrefl (-1074 : ℤ)), Bool.and_false]
    · rw [if_neg h', if_neg (mt hleast.mp h')]
      -- All other mantissas have the hidden bit in front.
      have hfront : (1#1 ++ @unpackMantissa .binary64 b).toNat = 2 ^ 52 + b.toNat % 2 ^ 52 := by
        rw [BitVec.toNat_append, ← Nat.shiftLeft_add_eq_or_of_lt (BitVec.isLt _),
          toNat_unpackMantissa]
        rfl
      have hexponent : ((@unpackExponent .binary64 b).toNat : ℤ) - (1023 + 52) =
          -1074 + (b.toNat / 2 ^ 52 % 2048 : ℕ) - 1 := by
        rw [toNat_unpackExponent]
        omega
      -- The step below is half as long where the mantissa is least, unless the exponent is, too.
      have hgap : (b.toNat % 2 ^ 52 == 0 && decide (b.toNat / 2 ^ 52 % 2048 > 1)) =
          (2 ^ 52 + b.toNat % 2 ^ 52 == 2 ^ 52 &&
            decide (-1074 < -1074 + (b.toNat / 2 ^ 52 % 2048 : ℕ) - (1 : ℤ))) := by
        rw [Bool.eq_iff_iff, Bool.and_eq_true, Bool.and_eq_true, beq_iff_eq, beq_iff_eq,
          decide_eq_true_iff, decide_eq_true_iff]
        omega
      rw [hgap]
      exact (ofUnpacked_finite hfront hexponent).symm

end

variable {x y : Float}

/-- The parts of a double are those that the machine unpacks. -/
theorem ofFloat_eq (x : Float) : ofFloat x = ofUnpacked x.toModel.unpack :=
  ofBits_double x.toModel.toBits.toBitVec

/-- Whether it is a minus tells the sign. -/
theorem isMinus_inj {s t : Sign} (h : isMinus s = isMinus t) : s = t := by
  cases s <;> cases t <;> first | rfl | exact nomatch h

/-- Different numbers of the machine have different parts. -/
theorem ofUnpacked_injective : Function.Injective ofUnpacked := by
  intro a b h
  match a, b with
  | .notANumber, .notANumber => rfl
  | .infinity s, .infinity t => rw [isMinus_inj (infinite.inj h)]
  | .zero s, .zero t => rw [isMinus_inj (finite.inj h).1]
  | .finite s m e _, .finite t m' e' _ =>
    obtain ⟨hsign, rfl, rfl, -⟩ := finite.inj h
    rw [isMinus_inj hsign]
  -- A zero is told from the other finite numbers by its significand.
  | .zero s, .finite t m e hm => exact absurd (finite.inj h).2.1 hm.ne
  | .finite s m e hm, .zero t => exact absurd (finite.inj h).2.1 hm.ne'

/-! ## Texts -/

/-- **Two doubles have different texts**; what is not a number counts as one double. -/
theorem text_ofFloat_inj (h : (ofFloat x).text .plain = (ofFloat y).text .plain) : x = y := by
  have hparts : ofFloat x = ofFloat y := eq_of_text_eq (of_ofBits _) (of_ofBits _) h
  rw [ofFloat_eq, ofFloat_eq] at hparts
  have hbits := (unpack_inj_of_valid x.toModel.valid y.toModel.valid).mp
    (ofUnpacked_injective hparts)
  exact Float.toBits_inj.mp (UInt64.toBitVec_inj.mp hbits)

/-- The text of a finite double is a number of JSON. -/
theorem isNumber_of_isFinite (h : x.isFinite = true) :
    Json.IsNumber ((ofFloat x).text .plain) := by
  have hfinite : x.toModel.unpack.isFinite = true := h
  rw [ofFloat_eq]
  cases hx : x.toModel.unpack with
  | infinity s =>
    rw [hx] at hfinite
    cases hfinite
  | notANumber =>
    rw [hx] at hfinite
    cases hfinite
  | zero s => exact isNumber_text _ _ _ _
  | finite s m e hm => exact isNumber_text _ _ _ _

/-- The text of any other double is a word. -/
theorem exists_letter_of_not_isFinite (h : x.isFinite = false) :
    ∃ c ∈ (ofFloat x).text .plain, c = 'i' ∨ c = 'N' := by
  have hfinite : x.toModel.unpack.isFinite = false := h
  rw [ofFloat_eq, text_plain]
  cases hx : x.toModel.unpack with
  | infinity s =>
    refine ⟨'i', ?_, .inl rfl⟩
    cases s <;> simp [ofUnpacked, unsigned, negative, isMinus, text.signed]
  | notANumber => exact ⟨'N', List.mem_cons_self, .inr rfl⟩
  | zero s =>
    rw [hx] at hfinite
    cases hfinite
  | finite s m e hm =>
    rw [hx] at hfinite
    cases hfinite

end Flowchart.Decimal.Binary
