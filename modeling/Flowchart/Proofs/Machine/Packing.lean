import Mathlib
import Flowchart.Proofs.Machine.Order

/-!
# Packing machine numbers

The result of an operation is packed into bits. A canonical number is unpacked again as it was
(`unpack_pack_finite`), one whose exponent is out of range becomes infinity (`unpack_pack_large`),
so a positive number keeps its place up to that of infinity (`standsAt_pack`).
-/

namespace Flowchart.Machine

open Float.Model (Format UnpackedFloat)
open Float.Model.UnpackedFloat

section

variable {s : Sign} {exponent : BitVec 8} {mantissa : BitVec 23}

/-- Bits with an exponent that is neither full nor zero have one more bit in front of those of the
mantissa. -/
theorem unpack_normal (hzero : exponent.toNat ≠ 0) (hfull : exponent.toNat ≠ 255) :
    unpack Format.binary32 (packComponents Format.binary32 s exponent mantissa) =
      .finite s (2 ^ 23 + mantissa.toNat) (exponent.toNat - 150) (by omega) := by
  have hzero' : exponent ≠ 0#_ := fun heq => hzero (heq ▸ rfl)
  have hfull' : exponent ≠ -1#_ := fun heq => hfull (heq ▸ rfl)
  have hfront : (1#1 ++ mantissa).toNat = 2 ^ 23 + mantissa.toNat := by
    rw [BitVec.toNat_append, ← Nat.shiftLeft_add_eq_or_of_lt mantissa.isLt]
    rfl
  unfold unpack
  simp only [unpackExponent_packComponents, unpackMantissa_packComponents,
    unpackSign_packComponents, Sign.ofBitVec_toBitVec]
  rw [if_neg hfull', if_neg hzero']
  simp only [hfront]
  rfl

/-- With an exponent of zero they stand for a number of the least exponent. -/
theorem unpack_subnormal (h : 0 < mantissa.toNat) :
    unpack Format.binary32 (packComponents Format.binary32 s 0 mantissa) =
      .finite s mantissa.toNat (-149) h := by
  have hsome : mantissa ≠ 0#_ := fun heq => h.ne' (heq ▸ rfl)
  unfold unpack
  simp only [unpackExponent_packComponents, unpackMantissa_packComponents,
    unpackSign_packComponents, Sign.ofBitVec_toBitVec]
  rw [if_neg (by decide), if_pos (by rfl), dif_neg hsome]
  rfl

end

section

variable {s : Sign} {m : ℕ} {e : ℤ} {hm : 0 < m}

/-- **A canonical number is unpacked as it was packed.** -/
theorem unpack_pack_finite (h : Canonical (.finite s m e hm)) :
    unpack Format.binary32 (pack Format.binary32 (.finite s m e hm)) = .finite s m e hm := by
  obtain ⟨hbits, hlow, hhigh, hfull⟩ := h
  have hfits : ¬ 2 ^ 8 ≤ (e + 127 + 23).toNat + 1 := by omega
  have hpack : pack Format.binary32 (.finite s m e hm) =
      if m.log2 + 1 = 24 then
        packComponents Format.binary32 s (.ofNat 8 (e + 127 + 23).toNat) (.ofNat 23 m)
      else packComponents Format.binary32 s 0 (.ofNat 23 m) := if_neg hfits
  rw [hpack]
  split
  · rename_i hlog
    -- The mantissa has all its bits, so the first one is hidden.
    have hsize : 2 ^ 23 ≤ m := (Nat.le_log2 hm.ne').mp (by omega)
    have hexponent : (BitVec.ofNat 8 (e + 127 + 23).toNat).toNat = (e + 150).toNat := by
      rw [BitVec.toNat_ofNat]
      omega
    have hmantissa : 2 ^ 23 + (BitVec.ofNat 23 m).toNat = m := by
      rw [BitVec.toNat_ofNat]
      omega
    rw [unpack_normal (by omega) (by omega)]
    simp only [hmantissa, hexponent]
    congr 1
    omega
  · rename_i hlog
    -- A shorter one stands at the least exponent and is kept as it is.
    have hsize : m < 2 ^ 23 := by
      refine (Nat.log2_lt hm.ne').mp ?_
      have := (Nat.log2_lt hm.ne').mpr hbits
      omega
    obtain rfl : e = -149 := by omega
    have hmantissa : (BitVec.ofNat 23 m).toNat = m := by
      rw [BitVec.toNat_ofNat]
      omega
    rw [unpack_subnormal (by omega)]
    simp only [hmantissa]

/-- A number of a greater exponent is packed as infinity. -/
theorem unpack_pack_large (h : 104 < e) :
    unpack Format.binary32 (pack Format.binary32 (.finite s m e hm)) = .infinity s := by
  have hlarge : 2 ^ 8 ≤ (e + 127 + 23).toNat + 1 := by omega
  have hpack : pack Format.binary32 (.finite s m e hm) = packedInfinity Format.binary32 s :=
    if_pos hlarge
  rw [hpack]
  cases s <;> rfl

/-- A positive number stands, packed, at its place or at that of infinity. -/
theorem standsAt_pack (hbits : m < 2 ^ 24) (hlow : -149 ≤ e) (hfull : 2 ^ 23 ≤ m ∨ e = -149) :
    StandsAt (unpack Format.binary32 (pack Format.binary32 (.finite .positive m e hm)))
      (min top ((e + 149) * 2 ^ 23 + m)) := by
  rcases le_or_gt e 104 with hle | hlt
  · have hcanonical : Canonical (.finite .positive m e hm) := ⟨hbits, hlow, hle, hfull⟩
    rw [unpack_pack_finite hcanonical, min_eq_right hcanonical.between.2.le]
    exact ⟨rfl, rfl⟩
  · rw [unpack_pack_large hlt, min_eq_left (by rw [top]; omega)]
    exact ⟨rfl, rfl⟩

end

/-- Zero is kept when it is packed, with either sign. -/
theorem standsAt_pack_zero (s : Sign) :
    StandsAt (unpack Format.binary32 (pack Format.binary32 (.zero s))) 0 := by
  cases s <;> exact ⟨rfl, rfl⟩

/-- Infinity is kept when it is packed. -/
theorem standsAt_pack_infinity :
    StandsAt (unpack Format.binary32 (pack Format.binary32 (.infinity .positive))) top :=
  ⟨rfl, rfl⟩

end Flowchart.Machine
