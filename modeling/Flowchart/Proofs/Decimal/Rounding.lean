import Flowchart.Decimal.Shortest
import Mathlib.Algebra.Order.Field.Power
import Mathlib.Data.Nat.Cast.Field
import Mathlib.Data.Rat.Cast.Order
import Mathlib.Tactic.FieldSimp
import Mathlib.Tactic.Positivity
import Mathlib.Tactic.Ring

/-!
# Rounding intervals

A binary number owns the numbers that round to it, those of its rounding interval. The search for the
shortest decimal ends with one of them (`shortest_mem`): where it finds a multiple of a power of ten,
that one is in the interval, and at the lowest power it takes the number itself.

The intervals of two numbers of a format have nothing in common (`Fits.not_mem`). Where they touch,
one of the two significands is odd, and its interval is open. So a number is known by any decimal of
its interval (`Fits.eq_of_mem`).
-/

namespace Flowchart.Decimal

/-! ## What lies in an interval -/

namespace Interval

/-- To lie in an interval is to lie between its ends, and to be none of them if it is open. -/
structure Mem (i : Interval) (x : ℚ) : Prop where
  /-- It is not below the lower end. -/
  low_le : i.low * 2 ^ i.exponent ≤ x
  /-- It is not above the upper end. -/
  le_high : x ≤ i.high * 2 ^ i.exponent
  /-- When the ends do not belong to the interval, it is none of them. -/
  inside : i.closed = false → i.low * 2 ^ i.exponent < x ∧ x < i.high * 2 ^ i.exponent

/-- A power is that of the positive part of its exponent over that of the negative part. -/
theorem zpow_mul_toNat {b : ℚ} (hb : b ≠ 0) (n : ℤ) : b ^ n * b ^ (-n).toNat = b ^ n.toNat := by
  rw [← zpow_natCast, ← zpow_natCast, ← zpow_add₀ hb]
  congr 1
  omega

/-- The two factors bring the powers of ten and of two to a common measure. -/
theorem exists_measure (i : Interval) (place : ℤ) :
    ∃ c : ℚ, 0 < c ∧ ((i.measures place).1 : ℚ) = 10 ^ place * c ∧
      ((i.measures place).2 : ℚ) = 2 ^ i.exponent * c := by
  have hten := zpow_mul_toNat (b := 10) (by norm_num) place
  have htwo := zpow_mul_toNat (b := 2) (by norm_num) i.exponent
  refine ⟨2 ^ (-i.exponent).toNat * 10 ^ (-place).toNat, by positivity, ?_, ?_⟩
  · show ((10 ^ place.toNat * 2 ^ (-i.exponent).toNat : ℕ) : ℚ) = _
    push_cast
    rw [← hten]
    ring
  · show ((2 ^ i.exponent.toNat * 10 ^ (-place).toNat : ℕ) : ℚ) = _
    push_cast
    rw [← htwo]
    ring

/-- What is found to be contained lies in the interval. -/
theorem mem_of_contains {i : Interval} {place : ℤ} {t : ℕ} (h : i.contains place t = true) :
    i.Mem (t * 10 ^ place) := by
  obtain ⟨c, hc, hunit, hscale⟩ := i.exists_measure place
  -- All is compared in units of the measures, which are positive.
  have hle (a b : ℚ) : a * c ≤ b * c ↔ a ≤ b := mul_le_mul_iff_left₀ hc
  have hlt (a b : ℚ) : a * c < b * c ↔ a < b := mul_lt_mul_iff_left₀ hc
  have ht : ((t * (i.measures place).1 : ℕ) : ℚ) = t * 10 ^ place * c := by
    rw [Nat.cast_mul, hunit, mul_assoc]
  have hlow : ((i.low * (i.measures place).2 : ℕ) : ℚ) = i.low * 2 ^ i.exponent * c := by
    rw [Nat.cast_mul, hscale, mul_assoc]
  have hhigh : ((i.high * (i.measures place).2 : ℕ) : ℚ) = i.high * 2 ^ i.exponent * c := by
    rw [Nat.cast_mul, hscale, mul_assoc]
  rw [contains] at h
  dsimp only at h
  cases hclosed : i.closed with
  | true =>
    rw [hclosed, if_pos rfl, Bool.and_eq_true, decide_eq_true_iff, decide_eq_true_iff] at h
    have h₁ : ((i.low * (i.measures place).2 : ℕ) : ℚ) ≤ (t * (i.measures place).1 : ℕ) :=
      Nat.cast_le.mpr h.1
    have h₂ : ((t * (i.measures place).1 : ℕ) : ℚ) ≤ (i.high * (i.measures place).2 : ℕ) :=
      Nat.cast_le.mpr h.2
    rw [hlow, ht, hle] at h₁
    rw [hhigh, ht, hle] at h₂
    exact ⟨h₁, h₂, fun hopen => absurd (hclosed.symm.trans hopen) Bool.true_eq_false.mp⟩
  | false =>
    rw [hclosed, if_neg Bool.false_ne_true, Bool.and_eq_true, decide_eq_true_iff,
      decide_eq_true_iff] at h
    have h₁ : ((i.low * (i.measures place).2 : ℕ) : ℚ) < (t * (i.measures place).1 : ℕ) :=
      Nat.cast_lt.mpr h.1
    have h₂ : ((t * (i.measures place).1 : ℕ) : ℚ) < (i.high * (i.measures place).2 : ℕ) :=
      Nat.cast_lt.mpr h.2
    rw [hlow, ht, hlt] at h₁
    rw [hhigh, ht, hlt] at h₂
    exact ⟨h₁.le, h₂.le, fun _ => ⟨h₁, h₂⟩⟩

/-- The multiple of a power of ten that is found lies in the interval. -/
theorem mem_of_nearestAt? {i : Interval} {place : ℤ} {t : ℕ} (h : i.nearestAt? place = some t) :
    i.Mem (t * 10 ^ place) := by
  have hcontains : i.contains place t = true := by
    rw [nearestAt?] at h
    dsimp only at h
    split at h
    · exact nomatch h
    · rename_i hbelow _
      obtain rfl := Option.some.inj h
      exact hbelow
    · rename_i _ habove
      obtain rfl := Option.some.inj h
      exact habove
    · rename_i hbelow habove
      obtain rfl := Option.some.inj h
      split
      · exact hbelow
      · exact habove
  exact mem_of_contains hcontains

/-- The search ends in the interval if the value at the lowest power lies in it. -/
theorem mem_search {i : Interval} {lowest : ℤ} (h : i.Mem (i.floorAt lowest * 10 ^ lowest))
    (steps : ℕ) : i.Mem ((i.search lowest steps).1 * 10 ^ (i.search lowest steps).2) := by
  induction steps with
  | zero => exact h
  | succ steps ih =>
    rw [search]
    cases hfound : i.nearestAt? (lowest + (steps + 1 : ℕ)) with
    | some t => exact mem_of_nearestAt? hfound
    | none => exact ih

section

variable (m : ℕ) (e : ℤ) (narrow : Bool)

/-- A number lies in its own interval. -/
theorem mem_around : (around m e narrow).Mem (m * 2 ^ e) := by
  have hpos : (0 : ℚ) < 2 ^ (e - 2) := by positivity
  have hvalue : (m * 2 ^ e : ℚ) = (4 * m : ℕ) * 2 ^ (e - 2) := by
    rw [zpow_sub₀ (by norm_num)]
    push_cast
    ring
  have hlow : (around m e narrow).low ≤ 4 * m := Nat.sub_le _ _
  have hhigh : 4 * m < (around m e narrow).high := by
    show 4 * m < 4 * m + 2
    omega
  rw [hvalue]
  refine ⟨?_, ?_, fun hopen => ⟨?_, ?_⟩⟩
  · exact mul_le_mul_of_nonneg_right (Nat.cast_le.mpr hlow) hpos.le
  · exact mul_le_mul_of_nonneg_right (Nat.cast_le.mpr hhigh.le) hpos.le
  · -- An odd significand is not zero, so that there is room below it.
    have hodd : m % 2 ≠ 0 := by simpa [around] using hopen
    have hlt : (around m e narrow).low < 4 * m := by
      show 4 * m - (if narrow then 1 else 2) < 4 * m
      split <;> omega
    exact mul_lt_mul_of_pos_right (Nat.cast_lt.mpr hlt) hpos
  · exact mul_lt_mul_of_pos_right (Nat.cast_lt.mpr hhigh) hpos

/-- At the lowest power of ten that is tried, the number itself is a multiple. -/
theorem floorAt_lowest : ((around m e narrow).floorAt (min e 0) : ℚ) * 10 ^ min e 0 = m * 2 ^ e := by
  obtain ⟨c, hc, hunit, hscale⟩ := (around m e narrow).exists_measure (min e 0)
  have hdvd : ((around m e narrow).measures (min e 0)).1 ∣
      (around m e narrow).value * ((around m e narrow).measures (min e 0)).2 := by
    -- The power of ten has all twos that the measure of the number lacks.
    have hpower : 2 ^ (-(e - 2)).toNat ∣ 4 * 10 ^ (-min e 0).toNat := by
      have hten : 2 ^ (-min e 0).toNat ∣ 10 ^ (-min e 0).toNat :=
        pow_dvd_pow_of_dvd (by norm_num) _
      have hfour : 2 ^ (-(e - 2)).toNat ∣ 2 ^ (2 + (-min e 0).toNat) :=
        pow_dvd_pow 2 (by omega)
      rw [pow_add] at hfour
      exact hfour.trans (mul_dvd_mul (by norm_num) hten)
    have hnone : (min e 0).toNat = 0 := by omega
    show 10 ^ (min e 0).toNat * 2 ^ (-(e - 2)).toNat ∣
      4 * m * (2 ^ (e - 2).toNat * 10 ^ (-min e 0).toNat)
    rw [hnone, pow_zero, one_mul]
    refine (hpower.mul_left (m * 2 ^ (e - 2).toNat)).trans (dvd_of_eq ?_)
    ring
  have hten : (0 : ℚ) < 10 ^ min e 0 := by positivity
  have htwo : (2 : ℚ) ^ (e - 2) * 4 = 2 ^ e := by
    rw [zpow_sub₀ (by norm_num)]
    ring
  have hvalue : ((around m e narrow).value : ℚ) = 4 * m := by
    show ((4 * m : ℕ) : ℚ) = 4 * m
    push_cast
    rfl
  -- The division has no remainder, so it may be done in the rational numbers.
  show ((((around m e narrow).value * ((around m e narrow).measures (min e 0)).2) /
    ((around m e narrow).measures (min e 0)).1 : ℕ) : ℚ) * 10 ^ min e 0 = m * 2 ^ e
  have hunitPos : ((around m e narrow).measures (min e 0)).1 ≠ 0 := by
    intro hzero
    rw [hzero] at hunit
    exact (mul_pos hten hc).ne hunit
  rw [Nat.cast_div hdvd (Nat.cast_ne_zero.mpr hunitPos), Nat.cast_mul, hunit, hscale, hvalue]
  show 4 * (m : ℚ) * (2 ^ (e - 2) * c) / (10 ^ min e 0 * c) * 10 ^ min e 0 = m * 2 ^ e
  rw [← htwo]
  field_simp

end

end Interval

/-- **The shortest decimal of a number lies in its rounding interval.** -/
theorem shortest_mem (m : ℕ) (e : ℤ) (narrow : Bool) :
    (Interval.around m e narrow).Mem
      ((shortest m e narrow).1 * 10 ^ (shortest m e narrow).2) := by
  apply Interval.mem_search
  rw [Interval.floorAt_lowest]
  exact Interval.mem_around m e narrow

/-! ## Intervals apart -/

/-- What the parts of a finite number are in a format with this hidden bit and this least exponent:
the hidden bit is missing at the least exponent only. The gap below is the smaller one where the next
smaller number has a smaller exponent. -/
structure Fits (hidden : ℕ) (lowest : ℤ) (m : ℕ) (e : ℤ) (narrow : Bool) : Prop where
  /-- The mantissa has no more bits than there are. -/
  lt : m < 2 * hidden
  /-- The exponent is not below the least one. -/
  le : lowest ≤ e
  /-- The first bit is set, except at the least exponent. -/
  normal : hidden ≤ m ∨ e = lowest
  /-- The step below is smaller just at the edge of two exponents. -/
  narrow_iff : narrow = true ↔ m = hidden ∧ lowest < e

section

variable {hidden m m' : ℕ} {lowest e e' : ℤ} {narrow narrow' : Bool} {x : ℚ}

/-- The upper end of an interval is not above the lower end of a later one, and where these ends are
the same, one of the intervals is open. Both are counted in the gaps of the first. -/
theorem Fits.high_le_low (h : Fits hidden lowest m e narrow)
    (h' : Fits hidden lowest m' e' narrow') {k : ℕ} (hk : e' = e + k) (hlater : k = 0 → m < m') :
    4 * m + 2 < (Interval.around m' e' narrow').low * 2 ^ k ∨
      4 * m + 2 = (Interval.around m' e' narrow').low * 2 ^ k ∧ (m % 2 = 1 ∨ m' % 2 = 1) := by
  have hlow : (Interval.around m' e' narrow').low = 4 * m' - if narrow' then 1 else 2 := rfl
  rw [hlow]
  rcases Nat.eq_zero_or_pos k with rfl | hpos
  · have hlt := hlater rfl
    rw [pow_zero, mul_one]
    split <;> omega
  · -- At a greater exponent the hidden bit is there, and a gap is twice as long or longer.
    have hlt := h.lt
    have hle := h.le
    have hhidden : hidden ≤ m' := h'.normal.resolve_right (by omega)
    have htwice : 2 ≤ 2 ^ k := Nat.le_self_pow hpos.ne' 2
    have hgap := Nat.mul_le_mul_left (4 * m' - if narrow' then 1 else 2) htwice
    cases hnarrow : narrow' with
    | true =>
      obtain ⟨rfl, -⟩ := h'.narrow_iff.mp hnarrow
      rw [hnarrow, if_pos rfl] at hgap
      rw [if_pos rfl]
      omega
    | false =>
      have hne : m' ≠ hidden := by
        rintro rfl
        rw [h'.narrow_iff.mpr ⟨rfl, by omega⟩] at hnarrow
        exact Bool.true_eq_false.mp hnarrow
      rw [hnarrow, if_neg Bool.false_ne_true] at hgap
      rw [if_neg Bool.false_ne_true]
      omega

/-- **Rounding intervals have nothing in common.** -/
theorem Fits.not_mem (h : Fits hidden lowest m e narrow) (h' : Fits hidden lowest m' e' narrow')
    (hlater : e < e' ∨ e = e' ∧ m < m') (hx : (Interval.around m e narrow).Mem x) :
    ¬ (Interval.around m' e' narrow').Mem x := by
  intro hx'
  obtain ⟨k, hk⟩ : ∃ k : ℕ, e' = e + k := ⟨(e' - e).toNat, by omega⟩
  have hends := h.high_le_low h' hk (by omega)
  have hunit : (0 : ℚ) < 2 ^ (e - 2) := by positivity
  have hhigh : x ≤ (4 * m + 2 : ℕ) * 2 ^ (e - 2) := hx.le_high
  -- The lower end of the later interval, counted in the gaps of the first.
  have hend : ((Interval.around m' e' narrow').low : ℚ) *
      2 ^ (Interval.around m' e' narrow').exponent =
        ((Interval.around m' e' narrow').low * 2 ^ k : ℕ) * 2 ^ (e - 2) := by
    have hexponent : (Interval.around m' e' narrow').exponent = k + (e - 2) := by
      show e' - 2 = _
      omega
    rw [hexponent, zpow_add₀ (by norm_num), zpow_natCast]
    push_cast
    ring
  have hlow := hx'.low_le
  rw [hend] at hlow
  rcases hends with hlt | ⟨heq, hodd⟩
  · have hapart : ((4 * m + 2 : ℕ) : ℚ) * 2 ^ (e - 2) <
        ((Interval.around m' e' narrow').low * 2 ^ k : ℕ) * 2 ^ (e - 2) :=
      mul_lt_mul_of_pos_right (Nat.cast_lt.mpr hlt) hunit
    exact absurd (hhigh.trans_lt (hapart.trans_le hlow)) (lt_irrefl _)
  · -- The number would be the common end, which does not belong to the open interval.
    rw [← heq] at hlow
    obtain rfl := le_antisymm hhigh hlow
    rcases hodd with hodd | hodd
    · have hopen : (Interval.around m e narrow).closed = false := by simp [Interval.around, hodd]
      exact lt_irrefl _ (hx.inside hopen).2
    · have hopen : (Interval.around m' e' narrow').closed = false := by
        simp [Interval.around, hodd]
      have hlt := (hx'.inside hopen).1
      rw [hend, ← heq] at hlt
      exact lt_irrefl _ hlt

/-- A number is known by any other one that rounds to it. -/
theorem Fits.eq_of_mem (h : Fits hidden lowest m e narrow) (h' : Fits hidden lowest m' e' narrow')
    (hx : (Interval.around m e narrow).Mem x) (hx' : (Interval.around m' e' narrow').Mem x) :
    m = m' ∧ e = e' ∧ narrow = narrow' := by
  have hfirst : ¬ (e < e' ∨ e = e' ∧ m < m') := fun hlater => h.not_mem h' hlater hx hx'
  have hsecond : ¬ (e' < e ∨ e' = e ∧ m' < m) := fun hlater => h'.not_mem h hlater hx' hx
  obtain rfl : e = e' := by omega
  obtain rfl : m = m' := by omega
  exact ⟨rfl, rfl, Bool.eq_iff_iff.mpr (h.narrow_iff.trans h'.narrow_iff.symm)⟩

end

end Flowchart.Decimal
