import Flowchart.Proofs.Machine.Rounding
import Mathlib.Algebra.Order.Field.Power

/-!
# Arithmetic of machine numbers

The product of positive machine numbers stands at the place that their exact product is rounded to,
and whole numbers at those that they are rounded to. As rounding keeps the order, so do
multiplication by a positive number (`mul_le_mul_right`) and the conversion of whole numbers
(`ofNat_le_ofNat`), however large they are. The sum of two numbers that are not negative is a number
(`isNaN_add`).
-/

namespace Flowchart.Machine

open Float.Model (Format UnpackedFloat totalExponent)
open Float.Model.UnpackedFloat

/-! ## Magnitudes -/

/-- The magnitude of a finite number. -/
def magnitude : UnpackedFloat → ℚ
  | .finite _ m e _ => m * 2 ^ e
  | _ => 0

section

variable {a b c : UnpackedFloat}

/-- What stands behind zero is positive. -/
theorem exists_of_place_pos (ha : Canonical a) (h : 0 < place a) :
    a = .infinity .positive ∨ ∃ m e hm, a = .finite .positive m e hm := by
  cases a with
  | notANumber => exact absurd h (lt_irrefl 0)
  | zero s => exact absurd h (lt_irrefl 0)
  | infinity s =>
    cases s with
    | negative => exact absurd h (by decide)
    | positive => exact .inl rfl
  | finite s m e hm =>
    cases s with
    | negative =>
      have hbounds := ha.between
      have hneg : place (.finite .negative m e hm) = -((e + 149) * 2 ^ 23 + m) := rfl
      omega
    | positive => exact .inr ⟨m, e, hm, rfl⟩

/-- What stands at zero is a zero. -/
theorem exists_of_place_eq_zero (ha : Canonical a) (hna : a.isNaN = false) (h : place a = 0) :
    ∃ s, a = .zero s := by
  cases a with
  | notANumber => exact nomatch hna
  | zero s => exact ⟨s, rfl⟩
  | infinity s => cases s <;> exact absurd h (by decide)
  | finite s m e hm =>
    have hbounds := ha.between
    cases s with
    | negative =>
      have hneg : place (.finite .negative m e hm) = -((e + 149) * 2 ^ 23 + m) := rfl
      omega
    | positive =>
      have hpos : place (.finite .positive m e hm) = (e + 149) * 2 ^ 23 + m := rfl
      omega

/-- What is not negative is a zero, infinity or a positive finite number. -/
theorem exists_of_place_nonneg (ha : Canonical a) (hna : a.isNaN = false) (h : 0 ≤ place a) :
    (∃ s, a = .zero s) ∨ a = .infinity .positive ∨ ∃ m e hm, a = .finite .positive m e hm := by
  rcases h.eq_or_lt with heq | hlt
  · exact .inl (exists_of_place_eq_zero ha hna heq.symm)
  · exact .inr (exists_of_place_pos ha hlt)

variable {s t : Sign} {m n : ℕ} {e f : ℤ} {hm : 0 < m} {hn : 0 < n}

/-- Of two finite numbers, the one that stands behind the other has the greater magnitude. -/
theorem Canonical.magnitude_le (ha : Canonical (.finite s m e hm))
    (hb : Canonical (.finite t n f hn))
    (h : (e + 149) * 2 ^ 23 + (m : ℤ) ≤ (f + 149) * 2 ^ 23 + n) :
    (m : ℚ) * 2 ^ e ≤ n * 2 ^ f := by
  rcases (ha.place_le_iff hb).mp h with hlt | ⟨rfl, hle⟩
  · -- The mantissa of the greater exponent has all its bits.
    have hsmall : (m : ℚ) ≤ 2 ^ 24 := by exact_mod_cast ha.1.le
    have hfull : (2 ^ 23 : ℚ) ≤ n := by
      have hlow := ha.2.1
      exact_mod_cast hb.2.2.2.resolve_right (by omega)
    calc (m : ℚ) * 2 ^ e ≤ 2 ^ 24 * 2 ^ e := by gcongr
      _ = 2 ^ 23 * 2 ^ (e + 1) := by rw [zpow_add_one₀ two_ne_zero]; ring
      _ ≤ 2 ^ 23 * 2 ^ f := by gcongr; exacts [one_le_two, hlt]
      _ ≤ n * 2 ^ f := by gcongr
  · gcongr

/-- A number with a mantissa has a magnitude. -/
theorem magnitude_pos (hm : 0 < m) : (0 : ℚ) < m * 2 ^ e :=
  mul_pos (by exact_mod_cast hm) (zpow_pos two_pos e)

/-- The mantissas of two canonical numbers have, multiplied, no fewer bits than one mantissa has. -/
theorem Canonical.add_le_exponentFor (ha : Canonical (.finite s m e hm))
    (hb : Canonical (.finite t n f hn)) :
    e + f ≤ exponentFor (((m * n : ℕ) : ℚ) * 2 ^ (e + f)) := by
  rw [exponentFor, log_mul_zpow (Nat.mul_pos hm hn)]
  rcases ha.2.2.2 with hfull | rfl
  · have hlog : 23 ≤ (m * n).log2 :=
      (Nat.le_log2 (Nat.mul_pos hm hn).ne').mpr (hfull.trans (Nat.le_mul_of_pos_right m hn))
    omega
  · rcases hb.2.2.2 with hfull | rfl
    · have hlog : 23 ≤ (m * n).log2 :=
        (Nat.le_log2 (Nat.mul_pos hm hn).ne').mpr (hfull.trans (Nat.le_mul_of_pos_left n hm))
      omega
    · omega

end

/-! ## Products -/

/-- The place of the product of two numbers, the first not negative and the second positive. -/
def productPlace (a c : UnpackedFloat) : ℤ :=
  if place a = 0 then 0
  else if place a = top ∨ place c = top then top
  else roundedPlace (magnitude a * magnitude c)

section

variable {a b c : UnpackedFloat}

/-- The product of two numbers stands at the rounded place of their exact product. -/
theorem standsAt_mul (ha : Canonical a) (hc : Canonical c) (hna : a.isNaN = false)
    (hzero : 0 ≤ place a) (hpos : 0 < place c) (hfinite : 0 < place a ∨ place c < top) :
    StandsAt (unpack Format.binary32 (pack Format.binary32 (mul Format.binary32 a c)))
      (productPlace a c) := by
  rw [productPlace]
  rcases hzero.eq_or_lt with heq | hlt
  · -- The first number is zero, and by the condition the second one is finite.
    rw [if_pos heq.symm]
    obtain ⟨s, rfl⟩ := exists_of_place_eq_zero ha hna heq.symm
    rcases exists_of_place_pos hc hpos with rfl | ⟨n, f, hn, rfl⟩
    · rcases hfinite with h | h
      · exact absurd h (lt_irrefl _)
      · exact absurd h (lt_irrefl _)
    · exact standsAt_pack_zero _
  · rw [if_neg hlt.ne']
    rcases exists_of_place_pos ha hlt with rfl | ⟨m, e, hm, rfl⟩
    · rw [if_pos (.inl rfl)]
      rcases exists_of_place_pos hc hpos with rfl | ⟨n, f, hn, rfl⟩ <;> exact standsAt_pack_infinity
    · rcases exists_of_place_pos hc hpos with rfl | ⟨n, f, hn, rfl⟩
      · rw [if_pos (.inr rfl)]
        exact standsAt_pack_infinity
      · -- Both numbers are finite, so their mantissas are multiplied and rounded.
        have hfinite : ¬ (place (.finite .positive m e hm) = top ∨
            place (.finite .positive n f hn) = top) :=
          not_or.mpr ⟨ha.between.2.ne, hc.between.2.ne⟩
        rw [if_neg hfinite]
        have hround := standsAt_round (Nat.mul_pos hm hn) (ha.add_le_exponentFor hc)
        have hproduct : ((m * n : ℕ) : ℚ) * 2 ^ (e + f) = m * 2 ^ e * (n * 2 ^ f) := by
          rw [zpow_add₀ two_ne_zero]
          push_cast
          ring
        rw [hproduct] at hround
        exact hround

/-- The product of numbers that are not negative stands at no negative place. -/
theorem productPlace_nonneg (ha : Canonical a) (hc : Canonical c) (hzero : 0 ≤ place a)
    (hpos : 0 < place c) : 0 ≤ productPlace a c := by
  rw [productPlace]
  split_ifs with ha0 htop
  · exact le_rfl
  · exact by decide
  · obtain ⟨hatop, hctop⟩ := not_or.mp htop
    rcases exists_of_place_pos ha (lt_of_le_of_ne hzero (Ne.symm ha0)) with rfl | ⟨m, e, hm, rfl⟩
    · exact absurd rfl hatop
    rcases exists_of_place_pos hc hpos with rfl | ⟨n, f, hn, rfl⟩
    · exact absurd rfl hctop
    exact roundedPlace_nonneg (mul_pos (magnitude_pos hm) (magnitude_pos hn))

/-- Of two numbers, the greater one has the product at the greater place. -/
theorem productPlace_mono (ha : Canonical a) (hb : Canonical b) (hc : Canonical c)
    (hzero : 0 ≤ place a) (hab : place a ≤ place b) (hpos : 0 < place c) :
    productPlace a c ≤ productPlace b c := by
  rcases hzero.eq_or_lt with heq | hlt
  · rw [productPlace, if_pos heq.symm]
    exact productPlace_nonneg hb hc (hzero.trans hab) hpos
  · have hltb := hlt.trans_le hab
    rw [productPlace, productPlace, if_neg hlt.ne', if_neg hltb.ne']
    rcases exists_of_place_pos hb hltb with rfl | ⟨n, f, hn, rfl⟩
    · -- Nothing stands behind infinity.
      rw [if_pos (show place (.infinity .positive) = top ∨ place c = top from .inl rfl)]
      split_ifs
      · exact le_rfl
      · exact min_le_left _ _
    rcases exists_of_place_pos ha hlt with rfl | ⟨m, e, hm, rfl⟩
    · exact absurd hab (not_le.mpr hb.between.2)
    have hatop : place (.finite .positive m e hm) ≠ top := ha.between.2.ne
    have hbtop : place (.finite .positive n f hn) ≠ top := hb.between.2.ne
    rcases exists_of_place_pos hc hpos with rfl | ⟨k, g, hk, rfl⟩
    · rw [if_pos (.inr rfl), if_pos (.inr rfl)]
    have hctop : place (.finite .positive k g hk) ≠ top := hc.between.2.ne
    rw [if_neg (not_or.mpr ⟨hatop, hctop⟩), if_neg (not_or.mpr ⟨hbtop, hctop⟩)]
    have hmagnitude := ha.magnitude_le hb hab
    refine roundedPlace_mono (mul_pos (magnitude_pos hm) (magnitude_pos hk)) ?_
    exact mul_le_mul_of_nonneg_right hmagnitude (magnitude_pos hk).le

end

/-! ## Machine numbers -/

section

variable {x y w : Float32}

/-- The parts of a machine number are canonical. -/
theorem canonical (x : Float32) : Canonical x.toModel.unpack :=
  canonical_unpack x.toModel.toBits.toBitVec

/-- A positive length may be infinite; then the product with zero is not a number. -/
theorem standsAt_product (hx : x.isNaN = false) (hzero : 0 ≤ rank x) (hpos : 0 < rank w)
    (hfinite : 0 < rank x ∨ rank w < top) :
    StandsAt (x * w).toModel.unpack (productPlace x.toModel.unpack w.toModel.unpack) :=
  standsAt_mul (canonical x) (canonical w) hx hzero hpos hfinite

/-- The product is a number, and not negative. -/
theorem rank_mul_nonneg (hx : x.isNaN = false) (hzero : 0 ≤ rank x) (hpos : 0 < rank w)
    (hfinite : 0 < rank x ∨ rank w < top) : (x * w).isNaN = false ∧ 0 ≤ rank (x * w) := by
  obtain ⟨hproduct, hplace⟩ := standsAt_product hx hzero hpos hfinite
  refine ⟨hproduct, ?_⟩
  rw [rank, hplace]
  exact productPlace_nonneg (canonical x) (canonical w) hzero hpos

/-- **Multiplication by a positive number keeps the order.** -/
theorem mul_le_mul_right (h : x ≤ y) (hzero : 0 ≤ rank x) (hpos : 0 < rank w)
    (hfinite : 0 < rank x ∨ rank w < top) : x * w ≤ y * w := by
  obtain ⟨hx, hy, hrank⟩ := le_iff.mp h
  obtain ⟨hxw, hxplace⟩ := standsAt_product hx hzero hpos hfinite
  obtain ⟨hyw, hyplace⟩ := standsAt_product hy (hzero.trans hrank) hpos
    (hfinite.imp_left hrank.trans_lt')
  refine le_iff.mpr ⟨hxw, hyw, ?_⟩
  rw [rank, rank, hxplace, hyplace]
  exact productPlace_mono (canonical x) (canonical y) (canonical w) hzero hrank hpos

/-- Zero is the zero with a positive sign. -/
theorem unpack_zero : (0 : Float32).toModel.unpack = .zero .positive := by rfl

/-- What is greater than zero stands behind it. -/
theorem rank_pos_of_pos (h : 0 < w) : 0 < rank w := by
  have hlt : UnpackedFloat.lt (0 : Float32).toModel.unpack w.toModel.unpack = true :=
    of_decide_eq_true h
  have hcanonical := canonical w
  rw [unpack_zero] at hlt
  rw [rank]
  generalize w.toModel.unpack = b at hlt hcanonical ⊢
  cases b with
  | notANumber => exact nomatch hlt
  | zero s => exact nomatch hlt
  | infinity s =>
    cases s with
    | negative => exact nomatch hlt
    | positive => decide
  | finite s m e hm =>
    cases s with
    | negative => exact nomatch hlt
    | positive => exact hcanonical.between.1

/-! ## Whole numbers -/

section

variable {m n : ℕ}

/-- The place of a whole number. -/
def wholePlace (n : ℕ) : ℤ := if n = 0 then 0 else roundedPlace n

/-- Whole numbers stand at no negative place. -/
theorem wholePlace_nonneg (n : ℕ) : 0 ≤ wholePlace n := by
  rw [wholePlace]
  split_ifs with hn
  · exact le_rfl
  · exact roundedPlace_nonneg (by exact_mod_cast Nat.pos_of_ne_zero hn)

/-- Larger whole numbers stand at no smaller place. -/
theorem wholePlace_mono (h : m ≤ n) : wholePlace m ≤ wholePlace n := by
  rcases Nat.eq_zero_or_pos m with rfl | hm
  · exact wholePlace_nonneg n
  · rw [wholePlace, wholePlace, if_neg hm.ne', if_neg (hm.trans_le h).ne']
    exact roundedPlace_mono (by exact_mod_cast hm) (by exact_mod_cast h)

/-- A small whole number is converted through a machine word. -/
theorem ofNat_of_lt (h : n < 2 ^ 23) : Float32.ofNat n = n.toUInt64.toFloat32 * 1 := by
  have hexact : n < 2 ^ 23 ∧ 0 ≤ 10 := ⟨h, Nat.zero_le 10⟩
  show Float32.ofScientific n false 0 = _
  rw [Float32.ofScientific, dif_pos hexact]
  rfl

/-- A positive mantissa with its exponent is rounded. -/
theorem standsAt_normalize (hn : 0 < n) (e : ℤ) :
    StandsAt (unpack Format.binary32 (pack Format.binary32
      (UnpackedFloat.normalize Format.binary32 n e .positive))) (roundedPlace (n * 2 ^ e)) := by
  have hpos : compare (n : ℤ) 0 = .gt := compare_gt_iff_gt.mpr (by exact_mod_cast hn)
  rw [UnpackedFloat.normalize, hpos]
  exact standsAt_round_short hn

/-- The place of a whole number in a machine word. -/
theorem standsAt_toFloat32 (h : n < 2 ^ 23) :
    StandsAt n.toUInt64.toFloat32.toModel.unpack (wholePlace n) := by
  have hword : n.toUInt64.toNat = n := by
    rw [Nat.toUInt64, UInt64.toNat_ofNat']
    omega
  have hunpack : n.toUInt64.toFloat32.toModel.unpack = unpack Format.binary32
      (pack Format.binary32 (normalize Format.binary32 n.toUInt64.toNat 0 .positive)) := rfl
  rw [hunpack, hword, wholePlace]
  split
  · rename_i hzero
    rw [hzero]
    exact standsAt_pack_zero .positive
  · rename_i hsome
    have hnormalize := standsAt_normalize (Nat.pos_of_ne_zero hsome) 0
    rwa [zpow_zero, mul_one] at hnormalize

/-- A large whole number is rounded at once. -/
theorem standsAt_ofNat_of_le (h : 2 ^ 23 ≤ n) :
    StandsAt (Float32.ofNat n).toModel.unpack (roundedPlace n) := by
  have hlarge : ¬ (n < 2 ^ 23 ∧ 0 ≤ 10) := fun hexact => h.not_gt hexact.1
  have hofNat : Float32.ofNat n = .ofModel (.ofScientific n 0) := by
    show Float32.ofScientific n false 0 = _
    rw [Float32.ofScientific, dif_neg hlarge]
    rfl
  have hpos : 0 < n := by omega
  -- The number is shifted so far to the left that no bit of it is lost.
  have hscientific : ofScientific Format.binary32 n 0 =
      roundWithAccuracy Format.binary32 .positive (n <<< 24 * 1) (-24 + 0) .exact := by
    have hlow : ¬ (0 : ℤ) < -(2 ^ 8 + (n.log2 : ℤ)) := by omega
    rw [ofScientific, dif_neg hpos.ne', if_neg (by decide), if_neg hlow, if_pos le_rfl]
    rfl
  have hshifted : n <<< 24 * 1 = n * 2 ^ 24 := by rw [Nat.shiftLeft_eq, mul_one]
  have hvalue : ((n * 2 ^ 24 : ℕ) : ℚ) * 2 ^ (-24 + 0 : ℤ) = n := by
    have hone : ((2 ^ 24 : ℕ) : ℚ) * 2 ^ (-24 + 0 : ℤ) = 1 := by norm_num
    rw [Nat.cast_mul, mul_assoc, hone, mul_one]
  have hexponent : (-24 + 0 : ℤ) ≤ exponentFor (((n * 2 ^ 24 : ℕ) : ℚ) * 2 ^ (-24 + 0 : ℤ)) := by
    have hlog : Int.log 2 ((n : ℚ) * 2 ^ (0 : ℤ)) = n.log2 + 0 := log_mul_zpow hpos
    rw [zpow_zero, mul_one] at hlog
    rw [hvalue, exponentFor, hlog]
    omega
  have hround := standsAt_round (Nat.mul_pos hpos (Nat.two_pow_pos 24)) hexponent
  rw [hvalue, ← hshifted, ← hscientific] at hround
  rw [hofNat]
  exact hround

/-- Whole numbers below `2 ^ 23` are machine numbers themselves and keep their order. -/
theorem ofNat_le_ofNat_of_lt (h : m ≤ n) (hn : n < 2 ^ 23) :
    Float32.ofNat m ≤ Float32.ofNat n := by
  obtain ⟨hmn, hmplace⟩ := standsAt_toFloat32 (h.trans_lt hn)
  obtain ⟨hnn, hnplace⟩ := standsAt_toFloat32 hn
  have hwords : m.toUInt64.toFloat32 ≤ n.toUInt64.toFloat32 := by
    refine le_iff.mpr ⟨hmn, hnn, ?_⟩
    rw [rank, rank, hmplace, hnplace]
    exact wholePlace_mono h
  have hzero : 0 ≤ rank m.toUInt64.toFloat32 := by
    rw [rank, hmplace]
    exact wholePlace_nonneg m
  rw [ofNat_of_lt (h.trans_lt hn), ofNat_of_lt hn]
  exact mul_le_mul_right hwords hzero (by decide +kernel) (.inr (by decide +kernel))

/-- From `2 ^ 23` on whole numbers are rounded, which keeps their order. -/
theorem ofNat_le_ofNat_of_le (h : m ≤ n) (hm : 2 ^ 23 ≤ m) :
    Float32.ofNat m ≤ Float32.ofNat n := by
  obtain ⟨hmn, hmplace⟩ := standsAt_ofNat_of_le hm
  obtain ⟨hnn, hnplace⟩ := standsAt_ofNat_of_le (hm.trans h)
  refine le_iff.mpr ⟨hmn, hnn, ?_⟩
  rw [rank, rank, hmplace, hnplace]
  exact roundedPlace_mono (by exact_mod_cast (Nat.two_pow_pos 23).trans_le hm)
    (by exact_mod_cast h)

/-- **Whole numbers keep their order.** -/
theorem ofNat_le_ofNat (h : m ≤ n) : Float32.ofNat m ≤ Float32.ofNat n := by
  rcases Nat.lt_or_ge n (2 ^ 23) with hn | hn
  · exact ofNat_le_ofNat_of_lt h hn
  · rcases Nat.lt_or_ge m (2 ^ 23) with hm | hm
    · -- Where one way of converting takes over from the other, the order is kept as well.
      have hmeet : Float32.ofNat (2 ^ 23 - 1) ≤ Float32.ofNat (2 ^ 23) := by decide +kernel
      have hbelow := ofNat_le_ofNat_of_lt (Nat.le_sub_one_of_lt hm) (by decide)
      exact le_trans hbelow (le_trans hmeet (ofNat_le_ofNat_of_le hn le_rfl))
    · exact ofNat_le_ofNat_of_le h hm

/-- Whole numbers are numbers, and not negative. -/
theorem rank_ofNat_nonneg (n : ℕ) :
    (Float32.ofNat n).isNaN = false ∧ 0 ≤ rank (Float32.ofNat n) := by
  obtain ⟨-, hn, hrank⟩ := le_iff.mp (ofNat_le_ofNat (Nat.zero_le n))
  have hzero : rank (Float32.ofNat 0) = 0 := by decide +kernel
  exact ⟨hn, hzero ▸ hrank⟩

/-- They are positive but for zero. -/
theorem rank_ofNat_pos (hn : 0 < n) : 0 < rank (Float32.ofNat n) := by
  have hone : 0 < rank (Float32.ofNat 1) := by decide +kernel
  exact hone.trans_le (le_iff.mp (ofNat_le_ofNat hn)).2.2

end

/-! ## Sums -/

/-- The sum of two lengths that are not negative is a number. -/
theorem isNaN_add (hx : x.isNaN = false) (hy : y.isNaN = false) (hxzero : 0 ≤ rank x)
    (hyzero : 0 ≤ rank y) : (x + y).isNaN = false := by
  show (unpack Format.binary32 (pack Format.binary32
    (add Format.binary32 x.toModel.unpack y.toModel.unpack))).isNaN = false
  have hxcanonical := canonical x
  have hycanonical := canonical y
  have hxshape := exists_of_place_nonneg hxcanonical hx hxzero
  have hyshape := exists_of_place_nonneg hycanonical hy hyzero
  generalize x.toModel.unpack = a at hxcanonical hxshape ⊢
  generalize y.toModel.unpack = b at hycanonical hyshape ⊢
  rcases hxshape with ⟨s, rfl⟩ | rfl | ⟨m, e, hm, rfl⟩
  · rcases hyshape with ⟨t, rfl⟩ | rfl | ⟨n, f, hn, rfl⟩
    · cases s <;> cases t <;> rfl
    · exact standsAt_pack_infinity.isNaN
    · exact congrArg isNaN (unpack_pack_finite hycanonical)
  · rcases hyshape with ⟨t, rfl⟩ | rfl | ⟨n, f, hn, rfl⟩ <;> exact standsAt_pack_infinity.isNaN
  · rcases hyshape with ⟨t, rfl⟩ | rfl | ⟨n, f, hn, rfl⟩
    · exact congrArg isNaN (unpack_pack_finite hxcanonical)
    · exact standsAt_pack_infinity.isNaN
    · -- Both mantissas are brought to the smaller exponent, and their sum is rounded.
      have hpos : 0 < m <<< (e - min e f).toNat + n <<< (f - min e f).toNat := by
        rw [Nat.shiftLeft_eq]
        exact Nat.add_pos_left (Nat.mul_pos hm (Nat.two_pow_pos _)) _
      exact (standsAt_normalize hpos (min e f)).isNaN

end

end Flowchart.Machine
