import Flowchart.Proofs.Machine.Packing
import Mathlib.Data.Int.Log
import Mathlib.Data.Rat.Floor

/-!
# Rounding keeps the order

A result that has no machine number of its own is rounded to the nearest one, of two that are
equally near to the one with an even mantissa. `roundedPlace` says at which place of the order the
number nearest to a positive length stands, and greater lengths have no smaller places
(`roundedPlace_mono`). The machine gets there by shifting bits out of a mantissa, of which it keeps
two: the last one and whether any one before it was set (`Holds`). `standsAt_round` shows that it
arrives at the same place.
-/

namespace Flowchart.Machine

open Float.Model (Format UnpackedFloat totalExponent)
open Float.Model.UnpackedFloat

/-! ## The nearest whole number -/

/-- The whole number nearest to a length, the even one of two that are equally near. -/
def nearestEven (x : ℚ) : ℤ :=
  if Int.fract x < 1 / 2 then ⌊x⌋ else if 1 / 2 < Int.fract x then ⌊x⌋ + 1 else ⌊x⌋ + ⌊x⌋ % 2

/-- The nearest whole number is not below the one that a length is rounded down to. -/
theorem floor_le_nearestEven (x : ℚ) : ⌊x⌋ ≤ nearestEven x := by
  rw [nearestEven]
  split_ifs <;> omega

/-- The nearest whole number is at most one above the one that a length is rounded down to. -/
theorem nearestEven_le_floor_add_one (x : ℚ) : nearestEven x ≤ ⌊x⌋ + 1 := by
  rw [nearestEven]
  split_ifs <;> omega

/-- Rounding keeps the order of lengths. -/
theorem nearestEven_mono {x y : ℚ} (h : x ≤ y) : nearestEven x ≤ nearestEven y := by
  rcases (Int.floor_le_floor h).lt_or_eq with hlt | heq
  · calc nearestEven x ≤ ⌊x⌋ + 1 := nearestEven_le_floor_add_one x
      _ ≤ ⌊y⌋ := hlt
      _ ≤ nearestEven y := floor_le_nearestEven y
  · -- With the same whole part, the greater one has the greater rest.
    have hfract : Int.fract x ≤ Int.fract y := by
      rw [Int.fract, Int.fract, heq]
      linarith
    rw [nearestEven, nearestEven, heq]
    split_ifs <;> first | omega | (exfalso; linarith)

/-! ## The nearest place -/

/-- The exponent that a positive length gets: its mantissa has 24 bits, or fewer at the least
exponent. -/
def exponentFor (x : ℚ) : ℤ := max (Int.log 2 x - 23) (-149)

/-- The place of the machine number nearest to a positive length. -/
def roundedPlace (x : ℚ) : ℤ :=
  min top ((exponentFor x + 149) * 2 ^ 23 + nearestEven (x / 2 ^ exponentFor x))

/-- Larger lengths get no smaller exponent. -/
theorem exponentFor_mono {x y : ℚ} (hx : 0 < x) (h : x ≤ y) : exponentFor x ≤ exponentFor y := by
  have hlog := Int.log_mono_right (b := 2) hx h
  rw [exponentFor, exponentFor]
  omega

/-- A mantissa has at most 24 bits. -/
theorem div_exponentFor_lt (x : ℚ) : x / 2 ^ exponentFor x < 2 ^ 24 := by
  rw [div_lt_iff₀ (zpow_pos two_pos _)]
  have hlog := Int.lt_zpow_succ_log_self (b := 2) one_lt_two x
  calc x < (2 : ℚ) ^ (Int.log 2 x + 1) := by exact_mod_cast hlog
    _ ≤ (2 : ℚ) ^ (24 + exponentFor x) :=
      zpow_le_zpow_right₀ one_le_two (by rw [exponentFor]; omega)
    _ = 2 ^ 24 * 2 ^ exponentFor x := by rw [zpow_add₀ two_ne_zero]; norm_cast

/-- Above the least exponent it has all 24 bits. -/
theorem le_div_exponentFor {x : ℚ} (hx : 0 < x) (h : -149 < exponentFor x) :
    2 ^ 23 ≤ x / 2 ^ exponentFor x := by
  rw [le_div_iff₀ (zpow_pos two_pos _)]
  have hlog := Int.zpow_log_le_self (b := 2) one_lt_two hx
  calc (2 : ℚ) ^ 23 * 2 ^ exponentFor x = 2 ^ (23 + exponentFor x) := by
        rw [zpow_add₀ two_ne_zero]; norm_cast
    _ ≤ 2 ^ Int.log 2 x := zpow_le_zpow_right₀ one_le_two (by rw [exponentFor] at h ⊢; omega)
    _ ≤ x := by exact_mod_cast hlog

/-- A rounded mantissa has 24 bits, or it is the power of two behind these. -/
theorem nearestEven_div_le (x : ℚ) :
    nearestEven (x / 2 ^ exponentFor x) ≤ 2 ^ 24 := by
  have hfloor : ⌊x / 2 ^ exponentFor x⌋ < 2 ^ 24 :=
    Int.floor_lt.mpr (by exact_mod_cast div_exponentFor_lt x)
  have hnearest := nearestEven_le_floor_add_one (x / 2 ^ exponentFor x)
  omega

/-- **Rounding keeps the order.** -/
theorem roundedPlace_mono {x y : ℚ} (hx : 0 < x) (h : x ≤ y) : roundedPlace x ≤ roundedPlace y := by
  have hexponent := exponentFor_mono hx h
  refine min_le_min_left _ ?_
  rcases hexponent.lt_or_eq with hlt | heq
  · -- The smaller one ends, rounded up, where the next exponent begins.
    have hy := hx.trans_le h
    have hlow : -149 ≤ exponentFor x := le_max_right _ _
    have hsmall := nearestEven_div_le x
    have hfull : (2 ^ 23 : ℤ) ≤ ⌊y / 2 ^ exponentFor y⌋ :=
      Int.le_floor.mpr (by exact_mod_cast le_div_exponentFor hy (hlow.trans_lt hlt))
    have hgreat := hfull.trans (floor_le_nearestEven _)
    omega
  · rw [heq]
    have hnearest := nearestEven_mono
      (div_le_div_of_nonneg_right h (zpow_pos two_pos (exponentFor y)).le : x / 2 ^ exponentFor y ≤ _)
    omega

/-- A positive length is not rounded to a negative place. -/
theorem roundedPlace_nonneg {x : ℚ} (hx : 0 < x) : 0 ≤ roundedPlace x := by
  have hlow : -149 ≤ exponentFor x := le_max_right _ _
  have hfloor : 0 ≤ ⌊x / 2 ^ exponentFor x⌋ :=
    Int.floor_nonneg.mpr (div_nonneg hx.le (zpow_pos two_pos _).le)
  have hnearest := floor_le_nearestEven (x / 2 ^ exponentFor x)
  rw [roundedPlace, top]
  omega

/-! ## Bits that are shifted out -/

/-- What the two bits behind a mantissa say of the length that it stands for. -/
def Holds : ExtendedMantissa → ℚ → Prop
  | ⟨m, false, false⟩, x => x = m
  | ⟨m, false, true⟩, x => m < x ∧ x < m + 1 / 2
  | ⟨m, true, false⟩, x => x = m + 1 / 2
  | ⟨m, true, true⟩, x => m + 1 / 2 < x ∧ x < m + 1

/-- A mantissa from which nothing was shifted out is the length itself. -/
theorem holds_exact (m : ℕ) : Holds (.ofMantissaAndAccuracy m .exact) m := rfl

/-- Shifting out a bit halves the length. -/
theorem Holds.shiftRightOne {em : ExtendedMantissa} {x : ℚ} (h : Holds em x) :
    Holds em.shiftRightOne (x / 2) := by
  obtain ⟨m, round, sticky⟩ := em
  -- The last bit of the mantissa becomes the bit next to it.
  obtain ⟨last, hhalf, hshifted⟩ : ∃ last : Bool, (m : ℚ) = 2 * (m / 2 : ℕ) + last.toNat ∧
      ExtendedMantissa.shiftRightOne ⟨m, round, sticky⟩ = ⟨m / 2, last, round || sticky⟩ := by
    refine ⟨m % 2 != 0, ?_, rfl⟩
    have hlast : (m % 2 != 0).toNat = m % 2 := by
      rcases Nat.mod_two_eq_zero_or_one m with hparity | hparity <;> rw [hparity] <;> rfl
    rw [hlast]
    exact_mod_cast (Nat.div_add_mod m 2).symm
  rw [hshifted]
  cases last <;> cases round <;> cases sticky <;>
    simp only [Holds, Bool.or_false, Bool.or_true, Bool.toNat_false, Bool.toNat_true] at h hhalf ⊢ <;>
    push_cast at hhalf <;>
    first
    | linarith
    | constructor <;> linarith

/-- Shifting out bits divides the length by a power of two. -/
theorem Holds.shiftRight {em : ExtendedMantissa} {x : ℚ} (h : Holds em x) (n : ℕ) :
    Holds (em >>> n) (x / 2 ^ n) := by
  induction n with
  | zero => rwa [pow_zero, div_one]
  | succ n ih =>
    rw [pow_succ, ← div_div]
    exact ih.shiftRightOne

/-- The mantissa with its two bits is the whole part of the length. -/
theorem Holds.floor_eq {em : ExtendedMantissa} {x : ℚ} (h : Holds em x) : ⌊x⌋ = em.mantissa := by
  obtain ⟨m, round, sticky⟩ := em
  rw [Int.floor_eq_iff, Int.cast_natCast]
  cases round <;> cases sticky <;> rw [Holds] at h <;> constructor <;> linarith

/-- The machine rounds to the nearest whole number. -/
theorem Holds.roundedMantissa_eq {em : ExtendedMantissa} {x : ℚ} (h : Holds em x) :
    (em.roundedMantissa : ℤ) = nearestEven x := by
  have hfloor := h.floor_eq
  obtain ⟨m, round, sticky⟩ := em
  have hfract : Int.fract x = x - m := by rw [Int.fract, hfloor, Int.cast_natCast]
  rw [nearestEven, hfract, hfloor, ExtendedMantissa.roundedMantissa]
  cases round with
  | false =>
    have hbelow : x - m < 1 / 2 := by cases sticky <;> rw [Holds] at h <;> linarith
    rw [if_pos hbelow]
    cases sticky <;> rfl
  | true =>
    have hreaches : ¬ x - m < 1 / 2 := by cases sticky <;> rw [Holds] at h <;> linarith
    rw [if_neg hreaches]
    cases sticky with
    | false =>
      rw [Holds] at h
      rw [if_neg (by linarith)]
      exact Nat.cast_add m (m % 2)
    | true =>
      rw [Holds] at h
      rw [if_pos (by linarith)]
      exact Nat.cast_succ m

/-! ## Rounded numbers -/

section

variable {m : ℕ} {e : ℤ}

/-- The exponent of the leading bit of a mantissa and an exponent. -/
theorem log_mul_zpow (hm : 0 < m) : Int.log 2 ((m : ℚ) * 2 ^ e) = m.log2 + e := by
  have hpow : (0 : ℚ) < 2 ^ e := zpow_pos two_pos e
  have hpos : (0 : ℚ) < m * 2 ^ e := mul_pos (by exact_mod_cast hm) hpow
  refine le_antisymm ?_ ?_
  · -- The mantissa is below the power of two behind its leading bit.
    refine Int.lt_add_one_iff.mp ((Int.lt_zpow_iff_log_lt one_lt_two hpos).mp ?_)
    have hlt : (m : ℚ) < 2 ^ (m.log2 + 1) := by exact_mod_cast Nat.lt_log2_self
    calc (m : ℚ) * 2 ^ e < 2 ^ (m.log2 + 1) * 2 ^ e := by gcongr
      _ = ((2 : ℕ) : ℚ) ^ ((m.log2 : ℤ) + e + 1) := by
        rw [Nat.cast_two, add_right_comm, zpow_add₀ two_ne_zero]
        norm_cast
  · refine (Int.zpow_le_iff_le_log one_lt_two hpos).mp ?_
    have hle : (2 : ℚ) ^ m.log2 ≤ m := by exact_mod_cast Nat.log2_self_le hm.ne'
    calc ((2 : ℕ) : ℚ) ^ ((m.log2 : ℤ) + e) = 2 ^ m.log2 * 2 ^ e := by
          rw [Nat.cast_two, zpow_add₀ two_ne_zero]
          norm_cast
      _ ≤ m * 2 ^ e := by gcongr

/-- The machine aims at the same exponent. -/
theorem targetExponent_eq (hm : 0 < m) :
    Format.binary32.targetExponent (totalExponent m e) = exponentFor ((m : ℚ) * 2 ^ e) := by
  rw [exponentFor, log_mul_zpow hm]
  show max ((m.log2 : ℤ) + 1 + e - 24) (-149) = _
  omega

/-- The first shift leaves a length in units of the exponent. -/
theorem exists_shift (hm : 0 < m) (he : e ≤ exponentFor ((m : ℚ) * 2 ^ e)) :
    ∃ em, shiftToTargetExponent Format.binary32 m e .exact =
        (em, exponentFor ((m : ℚ) * 2 ^ e)) ∧
      Holds em ((m : ℚ) * 2 ^ e / 2 ^ exponentFor ((m : ℚ) * 2 ^ e)) := by
  have hshift : ((exponentFor ((m : ℚ) * 2 ^ e) - e).toNat : ℤ) =
      exponentFor ((m : ℚ) * 2 ^ e) - e := Int.toNat_of_nonneg (sub_nonneg.mpr he)
  refine ⟨ExtendedMantissa.ofMantissaAndAccuracy m .exact >>>
    (exponentFor ((m : ℚ) * 2 ^ e) - e).toNat, ?_, ?_⟩
  · rw [shiftToTargetExponent, targetExponent_eq hm, shiftToExponent, hshift]
    exact Prod.ext rfl (add_sub_cancel e _)
  · have hholds := (holds_exact m).shiftRight (exponentFor ((m : ℚ) * 2 ^ e) - e).toNat
    rwa [← zpow_natCast, hshift, zpow_sub₀ two_ne_zero, div_div_eq_mul_div] at hholds

/-- The second shift is none when the mantissa has not got too long by rounding. -/
theorem shift_of_fits {r : ℕ} {g : ℤ} (hr : r < 2 ^ 24) (hg : -149 ≤ g) :
    shiftToTargetExponent Format.binary32 r g .exact = (⟨r, false, false⟩, g) := by
  have hlog : r.log2 ≤ 23 := by
    rcases Nat.eq_zero_or_pos r with rfl | hpos
    · decide
    · have := (Nat.log2_lt hpos.ne').mpr hr
      omega
  have htarget : Format.binary32.targetExponent (totalExponent r g) - g ≤ 0 := by
    show max ((r.log2 : ℤ) + 1 + g - 24) (-149) - g ≤ 0
    omega
  rw [shiftToTargetExponent, shiftToExponent, Int.toNat_of_nonpos htarget]
  exact Prod.ext rfl (add_zero g)

/-- It takes the last bit off a mantissa that has. -/
theorem shift_of_overflow {g : ℤ} (hg : -149 ≤ g) :
    shiftToTargetExponent Format.binary32 (2 ^ 24) g .exact = (⟨2 ^ 23, false, false⟩, g + 1) := by
  have htarget : Format.binary32.targetExponent (totalExponent (2 ^ 24) g) - g = 1 := by
    show max (((2 ^ 24 : ℕ).log2 : ℤ) + 1 + g - 24) (-149) - g = 1
    rw [Nat.log2_two_pow]
    omega
  rw [shiftToTargetExponent, shiftToExponent, htarget]
  rfl

/-- **The machine rounds to the nearest place.** -/
theorem standsAt_round (hm : 0 < m) (he : e ≤ exponentFor ((m : ℚ) * 2 ^ e)) :
    StandsAt (unpack Format.binary32 (pack Format.binary32
        (roundWithAccuracy Format.binary32 .positive m e .exact)))
      (roundedPlace ((m : ℚ) * 2 ^ e)) := by
  obtain ⟨em, hshift, hholds⟩ := exists_shift hm he
  have hpos : (0 : ℚ) < (m : ℚ) * 2 ^ e := mul_pos (by exact_mod_cast hm) (zpow_pos two_pos e)
  have hrounded := hholds.roundedMantissa_eq
  have hfloor := floor_le_nearestEven ((m : ℚ) * 2 ^ e / 2 ^ exponentFor ((m : ℚ) * 2 ^ e))
  have hmost := nearestEven_div_le ((m : ℚ) * 2 ^ e)
  have hlow : -149 ≤ exponentFor ((m : ℚ) * 2 ^ e) := le_max_right _ _
  -- The mantissa has all its bits unless the exponent is the least one.
  have hfull : 2 ^ 23 ≤ em.roundedMantissa ∨ exponentFor ((m : ℚ) * 2 ^ e) = -149 := by
    rcases hlow.lt_or_eq with hlt | heq
    · have hsize : (2 ^ 23 : ℤ) ≤ ⌊(m : ℚ) * 2 ^ e / 2 ^ exponentFor ((m : ℚ) * 2 ^ e)⌋ :=
        Int.le_floor.mpr (by exact_mod_cast le_div_exponentFor hpos hlt)
      omega
    · exact .inr heq.symm
  rw [roundedPlace, ← hrounded]
  rw [← hrounded] at hmost
  unfold roundWithAccuracy
  rw [hshift]
  dsimp only
  generalize exponentFor ((m : ℚ) * 2 ^ e) = g at hlow hfull ⊢
  generalize em.roundedMantissa = r at hmost hfull ⊢
  rcases hmost.lt_or_eq with hlt | heq
  · -- The mantissa fits as it is; if it is zero, the exponent is the least one.
    rw [shift_of_fits (by exact_mod_cast hlt) hlow]
    dsimp only
    split
    · rename_i hzero
      obtain rfl : r = 0 := hzero
      obtain rfl : g = -149 := by omega
      exact ⟨rfl, rfl⟩
    · exact standsAt_pack (by exact_mod_cast hlt) hlow hfull
  · -- The mantissa of the next exponent begins where that of this one ends.
    obtain rfl : r = 2 ^ 24 := by exact_mod_cast heq
    rw [shift_of_overflow hlow]
    dsimp only
    rw [dif_neg (by decide)]
    have hnext : (g + 149) * 2 ^ 23 + ((2 ^ 24 : ℕ) : ℤ) =
        (g + 1 + 149) * 2 ^ 23 + ((2 ^ 23 : ℕ) : ℤ) := by
      push_cast
      ring
    rw [hnext]
    exact standsAt_pack (by decide) (by omega) (.inl le_rfl)

/-- The same holds when the mantissa may first be too short. -/
theorem standsAt_round_short (hm : 0 < m) :
    StandsAt (unpack Format.binary32 (pack Format.binary32
        (UnpackedFloat.round Format.binary32 .positive m e)))
      (roundedPlace ((m : ℚ) * 2 ^ e)) := by
  unfold UnpackedFloat.round decreaseExponent
  rw [targetExponent_eq hm]
  dsimp only
  generalize hk : (e - exponentFor ((m : ℚ) * 2 ^ e)).toNat = k
  have hvalue : ((m <<< k : ℕ) : ℚ) * 2 ^ (e - (k : ℤ)) = m * 2 ^ e := by
    have hpow : (2 : ℚ) ^ (k : ℤ) ≠ 0 := (zpow_pos two_pos _).ne'
    rw [Nat.shiftLeft_eq, zpow_sub₀ two_ne_zero]
    push_cast
    field_simp
    norm_cast
  have hpos : 0 < m <<< k := by
    rw [Nat.shiftLeft_eq]
    exact Nat.mul_pos hm (Nat.two_pow_pos k)
  have hexponent : e - (k : ℤ) ≤ exponentFor (((m <<< k : ℕ) : ℚ) * 2 ^ (e - (k : ℤ))) := by
    rw [hvalue]
    omega
  rw [← hvalue]
  exact standsAt_round hpos hexponent

end

end Flowchart.Machine
