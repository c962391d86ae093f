import Flowchart.Geometry
import Mathlib.Tactic.Linarith

/-!
# The order of machine numbers

A machine number is a sign with a mantissa and an exponent, a zero, an infinity, or not a number.
Read off its bits it is canonical: its exponent is the least one that its mantissa has room for.
So the numbers can be counted off from zero in both directions, and they are compared by their
places in this count (`le_iff_place`). That gives what the comparison of machine numbers has of an
order: what is a number is at most itself, and of two numbers one is at most the other.
-/

namespace Flowchart.Machine

open Float.Model (Format UnpackedFloat totalExponent)
open Float.Model.UnpackedFloat

/-- The place of infinity. -/
def top : ℤ := 255 * 2 ^ 23

/-- The place of a number, counted from zero. -/
def place : UnpackedFloat → ℤ
  | .infinity s => s.apply top
  | .notANumber => 0
  | .zero _ => 0
  | .finite s m e _ => s.apply ((e + 149) * 2 ^ 23 + m)

/-- To stand at a place is to be a number and to have this place. -/
structure StandsAt (f : UnpackedFloat) (p : ℤ) : Prop where
  /-- It is a number. -/
  isNaN : f.isNaN = false
  /-- It has this place. -/
  place : Machine.place f = p

/-- The mantissa has at most 24 bits, the exponent is in range, and a mantissa with fewer bits
stands at the least exponent only. -/
def Canonical : UnpackedFloat → Prop
  | .finite _ m e _ => m < 2 ^ 24 ∧ -149 ≤ e ∧ e ≤ 104 ∧ (2 ^ 23 ≤ m ∨ e = -149)
  | _ => True

/-- What is read off bits is canonical. -/
theorem canonical_unpack (b : BitVec Format.binary32.numBits) :
    Canonical (unpack Format.binary32 b) := by
  have hm := (@unpackMantissa Format.binary32 b).isLt
  have he := (@unpackExponent Format.binary32 b).isLt
  simp only [Format.binary32] at hm he
  unfold unpack
  by_cases hfull : @unpackExponent Format.binary32 b = -1#_
  · rw [if_pos hfull]
    split <;> exact trivial
  · rw [if_neg hfull]
    by_cases hzero : @unpackExponent Format.binary32 b = 0#_
    · rw [if_pos hzero]
      -- Without bits in the exponent, the mantissa is short and the exponent the least.
      by_cases hnone : @unpackMantissa Format.binary32 b = 0#_
      · rw [dif_pos hnone]
        exact trivial
      · rw [dif_neg hnone]
        refine ⟨?_, ?_, ?_, ?_⟩
        all_goals
          simp only [hzero, BitVec.toNat_ofNat, Format.exponentBias, Format.binary32]
          omega
    · rw [if_neg hzero]
      -- All other mantissas have the hidden bit in front.
      have hlow : (@unpackExponent Format.binary32 b).toNat ≠ 0 :=
        fun heq => hzero (BitVec.eq_of_toNat_eq heq)
      have hhigh : (@unpackExponent Format.binary32 b).toNat ≠ 255 :=
        fun heq => hfull (BitVec.eq_of_toNat_eq heq)
      have hfront : (1#1 ++ @unpackMantissa Format.binary32 b).toNat =
          2 ^ 23 + (@unpackMantissa Format.binary32 b).toNat := by
        rw [BitVec.toNat_append, ← Nat.shiftLeft_add_eq_or_of_lt (BitVec.isLt _)]
        rfl
      refine ⟨?_, ?_, ?_, ?_⟩
      all_goals
        simp only [hfront, Format.exponentBias, Format.binary32]
        omega

/-- What is at most something is a number. -/
theorem isNaN_eq_false_of_le {a b : UnpackedFloat} (h : a.le b = true) :
    a.isNaN = false ∧ b.isNaN = false := by
  cases a <;> cases b <;>
    first
    | exact ⟨rfl, rfl⟩
    | exact nomatch h

/-- Exponents are compared before mantissas. -/
theorem isLE_then_iff {e f : ℤ} {m n : ℕ} :
    ((compare e f).then (compare m n)).isLE = true ↔ e < f ∨ e = f ∧ m ≤ n := by
  rcases lt_trichotomy e f with hlt | rfl | hlt
  · simp [compare_lt_iff_lt.mpr hlt, hlt]
  · simp [Nat.isLE_compare]
  · simp [compare_gt_iff_gt.mpr hlt, hlt.not_gt, hlt.ne']

section

variable {m n : ℕ} {e f : ℤ} {hm : 0 < m} {hn : 0 < n} {s t : Sign}

/-- The count reaches the finite numbers after zero and before infinity. -/
theorem Canonical.between (h : Canonical (.finite s m e hm)) :
    0 < (e + 149) * 2 ^ 23 + (m : ℤ) ∧ (e + 149) * 2 ^ 23 + (m : ℤ) < top := by
  obtain ⟨hbits, hlow, hhigh, -⟩ := h
  rw [top]
  constructor <;> omega

/-- The count goes through the mantissas of one exponent before it comes to the next one. -/
theorem Canonical.place_le_iff (h : Canonical (.finite s m e hm))
    (h' : Canonical (.finite t n f hn)) :
    (e + 149) * 2 ^ 23 + (m : ℤ) ≤ (f + 149) * 2 ^ 23 + n ↔ e < f ∨ e = f ∧ m ≤ n := by
  obtain ⟨hmbits, hmlow, -, hmfull⟩ := h
  obtain ⟨hnbits, hnlow, -, hnfull⟩ := h'
  omega

/-- Finite numbers stand between the infinities. -/
theorem Canonical.place_bounds (h : Canonical (.finite s m e hm)) :
    -top < place (.finite s m e hm) ∧ place (.finite s m e hm) < top := by
  obtain ⟨hlow, hhigh⟩ := h.between
  cases s with
  | positive =>
    show -top < (e + 149) * 2 ^ 23 + (m : ℤ) ∧ (e + 149) * 2 ^ 23 + (m : ℤ) < top
    omega
  | negative =>
    show -top < -((e + 149) * 2 ^ 23 + (m : ℤ)) ∧ -((e + 149) * 2 ^ 23 + (m : ℤ)) < top
    omega

/-- Finite numbers are compared by their places. -/
theorem le_finite_iff_place (h : Canonical (.finite s m e hm))
    (h' : Canonical (.finite t n f hn)) :
    UnpackedFloat.le (.finite s m e hm) (.finite t n f hn) = true ↔
      place (.finite s m e hm) ≤ place (.finite t n f hn) := by
  have hpos := h.between.1
  have hpos' := h'.between.1
  cases s with
  | positive =>
    cases t with
    | positive =>
      show ((compare e f).then (compare m n)).isLE = true ↔
        (e + 149) * 2 ^ 23 + (m : ℤ) ≤ (f + 149) * 2 ^ 23 + n
      rw [isLE_then_iff, h.place_le_iff h']
    | negative =>
      refine iff_of_false Bool.false_ne_true ?_
      show ¬ (e + 149) * 2 ^ 23 + (m : ℤ) ≤ -((f + 149) * 2 ^ 23 + (n : ℤ))
      omega
  | negative =>
    cases t with
    | positive =>
      refine iff_of_true rfl ?_
      show -((e + 149) * 2 ^ 23 + (m : ℤ)) ≤ (f + 149) * 2 ^ 23 + (n : ℤ)
      omega
    | negative =>
      -- Negative numbers are in the opposite order of their mantissas and exponents.
      show ((compare e f).then (compare m n)).swap.isLE = true ↔
        -((e + 149) * 2 ^ 23 + (m : ℤ)) ≤ -((f + 149) * 2 ^ 23 + (n : ℤ))
      rw [Ordering.swap_then, ← Std.OrientedOrd.eq_swap, ← Std.OrientedOrd.eq_swap, isLE_then_iff,
        neg_le_neg_iff, h'.place_le_iff h]

end

/-- **Canonical numbers are compared by their places.** -/
theorem le_iff_place {a b : UnpackedFloat} (ha : Canonical a) (hb : Canonical b)
    (hna : a.isNaN = false) (hnb : b.isNaN = false) : a.le b = true ↔ place a ≤ place b := by
  cases a with
  | notANumber => exact nomatch hna
  | finite s m e hm =>
    cases b with
    | notANumber => exact nomatch hnb
    | finite t n f hn => exact le_finite_iff_place ha hb
    -- Places of finite numbers are between those of the infinities.
    | infinity t =>
      cases t with
      | positive => exact iff_of_true (by cases s <;> rfl) ha.place_bounds.2.le
      | negative =>
        exact iff_of_false (by cases s <;> exact Bool.false_ne_true) (not_le.mpr ha.place_bounds.1)
    -- Both zeros have the place zero, and a positive number has a positive one.
    | zero t =>
      cases s with
      | positive => exact iff_of_false Bool.false_ne_true (not_le.mpr ha.between.1)
      | negative => exact iff_of_true rfl (neg_nonpos.mpr ha.between.1.le)
  | infinity s =>
    cases b with
    | notANumber => exact nomatch hnb
    | infinity t => cases s <;> cases t <;> decide
    | zero t => cases s <;> cases t <;> decide
    | finite t n f hn =>
      cases s with
      | positive =>
        exact iff_of_false (by cases t <;> exact Bool.false_ne_true) (not_le.mpr hb.place_bounds.2)
      | negative => exact iff_of_true (by cases t <;> rfl) hb.place_bounds.1.le
  | zero s =>
    cases b with
    | notANumber => exact nomatch hnb
    | infinity t => cases s <;> cases t <;> decide
    | zero t => cases s <;> cases t <;> decide
    | finite t n f hn =>
      cases t with
      | positive => exact iff_of_true rfl hb.between.1.le
      | negative => exact iff_of_false Bool.false_ne_true (not_le.mpr (neg_neg_of_pos hb.between.1))

/-! ## Machine numbers -/

section

variable {x y z : Float32}

/-- The place of a machine number, counted from zero. -/
def rank (x : Float32) : ℤ := place x.toModel.unpack

/-- **The order of machine numbers** is that of their ranks. -/
theorem le_iff : x ≤ y ↔ x.isNaN = false ∧ y.isNaN = false ∧ rank x ≤ rank y := by
  have hle : x ≤ y ↔ x.toModel.unpack.le y.toModel.unpack = true := by
    exact decide_eq_true_iff
  have hplace := le_iff_place (canonical_unpack x.toModel.toBits.toBitVec)
    (canonical_unpack y.toModel.toBits.toBitVec)
  rw [hle]
  constructor
  · intro h
    obtain ⟨hx, hy⟩ := isNaN_eq_false_of_le h
    exact ⟨hx, hy, (hplace hx hy).mp h⟩
  · rintro ⟨hx, hy, h⟩
    exact (hplace hx hy).mpr h

/-- What is a number is at most itself. -/
theorem le_refl (h : x.isNaN = false) : x ≤ x := le_iff.mpr ⟨h, h, le_rfl⟩

/-- The order of machine numbers is transitive. -/
theorem le_trans (h : x ≤ y) (h' : y ≤ z) : x ≤ z := by
  obtain ⟨hx, -, h⟩ := le_iff.mp h
  obtain ⟨-, hz, h'⟩ := le_iff.mp h'
  exact le_iff.mpr ⟨hx, hz, h.trans h'⟩

/-- Of two numbers one is at most the other. -/
theorem le_of_not_le (hx : x.isNaN = false) (hy : y.isNaN = false) (h : ¬ x ≤ y) : y ≤ x := by
  refine le_iff.mpr ⟨hy, hx, le_of_lt (not_le.mp fun hrank => h ?_)⟩
  exact le_iff.mpr ⟨hx, hy, hrank⟩

/-- The larger one of two lengths is at least the second one, if that is a number. -/
theorem le_larger (h : y.isNaN = false) : y ≤ Scalar.larger x y := by
  show y ≤ if x.isNaN || x ≤ y then y else x
  split
  · exact le_refl h
  · rename_i hlarger
    obtain ⟨hx, hle⟩ := Bool.or_eq_false_iff.mp (Bool.eq_false_iff.mpr hlarger)
    exact le_of_not_le hx h (of_decide_eq_false hle)

end

end Flowchart.Machine
