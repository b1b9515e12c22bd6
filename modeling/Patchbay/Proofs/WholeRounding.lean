import Mathlib
import Patchbay.Number.Binary
import Patchbay.Proofs.Extremes
import Patchbay.Proofs.WholeNumber

/-!
# Whole numbers beyond 24 bits

A single holds 24 significant bits. A whole number of more bits is rounded to a multiple of a power
of two, and the multiple may be the greater one of the two that it lies between.
-/

set_option autoImplicit false

namespace Patchbay

open Float.Model Float.Model.UnpackedFloat

namespace Rounding

/-- The whole number of 24 significant bits nearest to `n`, the even one of two that are as near. -/
def nearest (n : Nat) : Nat := roundShift n (n.log2 - 23) <<< (n.log2 - 23)

variable {n j : Nat}

/-- What a shift cuts off is kept in two bits: the first one cut off and whether any other was 1. -/
theorem shiftRight_succ (n j : Nat) :
    ExtendedMantissa.mk n false false >>> (j + 1) =
      ⟨n / 2 ^ (j + 1), n / 2 ^ j % 2 != 0, n % 2 ^ j != 0⟩ := by
  show (j + 1).repeat ExtendedMantissa.shiftRightOne _ = _
  induction j with
  | zero => simp [Nat.repeat, ExtendedMantissa.shiftRightOne, Nat.mod_one]
  | succ j ih =>
    rw [Nat.repeat, ih, ExtendedMantissa.shiftRightOne, ExtendedMantissa.mk.injEq]
    refine ⟨by rw [Nat.div_div_eq_div_mul, ← pow_succ], rfl, ?_⟩
    have hrest : n % 2 ^ (j + 1) = n % 2 ^ j + 2 ^ j * (n / 2 ^ j % 2) := by
      rw [pow_succ, Nat.mod_mul]
    rcases Nat.mod_two_eq_zero_or_one (n / 2 ^ j) with hbit | hbit
    · simp [hrest, hbit]
    · simp [hrest, hbit]

/-- The two bits are enough to round to the nearest integer, a half to the even one. -/
theorem roundedMantissa_eq {q c d b : Nat} (hlow : c < d) (hb : b = 0 ∨ b = 1) :
    (ExtendedMantissa.mk q (b != 0) (c != 0)).roundedMantissa =
      if d * 2 < 2 * (c + d * b) ∨ 2 * (c + d * b) = d * 2 ∧ q % 2 = 1 then q + 1 else q := by
  have hrest (hc : c ≠ 0) : (c != 0) = true := by simpa using hc
  rcases hb with rfl | rfl
  · rw [if_neg (by omega)]
    by_cases hc : c = 0
    · subst hc
      rfl
    · rw [hrest hc]
      rfl
  · by_cases hc : c = 0
    · -- half way between the two
      subst hc
      show q + q % 2 = _
      split <;> omega
    · rw [hrest hc, if_pos (by omega)]
      rfl

theorem roundedMantissa_shiftRight (n j : Nat) :
    (ExtendedMantissa.mk n false false >>> j).roundedMantissa = roundShift n j := by
  have hsplit := Nat.div_add_mod n (2 ^ j)
  rw [roundShift]
  simp only [Nat.shiftRight_eq_div_pow, Nat.shiftLeft_eq, one_mul]
  rw [show n - n / 2 ^ j * 2 ^ j = n % 2 ^ j by rw [mul_comm]; omega]
  cases j with
  | zero =>
    show n = _
    simp [Nat.mod_one]
  | succ j =>
    have hlow : n % 2 ^ j < 2 ^ j := Nat.mod_lt n (Nat.two_pow_pos j)
    rw [shiftRight_succ, roundedMantissa_eq hlow (Nat.mod_two_eq_zero_or_one _), pow_succ,
      Nat.mod_mul]

/-- A number of more than 24 bits is rounded to 24 bits or to the first number of 25. -/
theorem roundShift_bounds (hn : 2 ^ 24 ≤ n) :
    2 ^ 23 ≤ roundShift n (n.log2 - 23) ∧ roundShift n (n.log2 - 23) ≤ 2 ^ 24 := by
  have hlog : 24 ≤ n.log2 := (Nat.le_log2 (by omega)).2 hn
  have hcut : (n / 2 ^ (n.log2 - 23)).log2 = 23 := by
    rw [log2_div_pow]
    omega
  have hpos : n / 2 ^ (n.log2 - 23) ≠ 0 := by
    intro hzero
    rw [hzero] at hcut
    cases hcut
  obtain ⟨hlow, hhigh⟩ := (Nat.log2_eq_iff hpos).1 hcut
  obtain ⟨hle, hle'⟩ := roundedMantissa_bounds (ExtendedMantissa.mk n false false >>> (n.log2 - 23))
  rw [roundedMantissa_shiftRight, shiftRight_mantissa] at hle hle'
  exact ⟨hlow.trans hle, hle'.trans hhigh⟩

theorem significand_nearest_of_le (hn : 2 ^ 24 ≤ n) (hword : n < 2 ^ 64) :
    ∃ k e, ∃ h : Significand (nearest n) k e,
      UnpackedFloat.ofNat Format.binary32 n = .finite .positive k e h.pos := by
  have hlog : 24 ≤ n.log2 := (Nat.le_log2 (by omega)).2 hn
  have hlog' : n.log2 < 64 := (Nat.log2_lt (by omega)).2 hword
  obtain ⟨hlow, hhigh⟩ := roundShift_bounds hn
  obtain ⟨k, d, hk, hk', hd, hvalue⟩ : ∃ k d, 2 ^ 23 ≤ k ∧ k < 2 ^ 24 ∧ d ≤ 1 ∧
      roundShift n (n.log2 - 23) = k * 2 ^ d := by
    rcases hhigh.lt_or_eq with hlt | heq
    · exact ⟨_, 0, hlow, hlt, by omega, by rw [pow_zero, mul_one]⟩
    · exact ⟨2 ^ 23, 1, le_rfl, by decide, le_rfl, heq⟩
  obtain ⟨t, ht⟩ : ∃ t, t = n.log2 - 23 := ⟨_, rfl⟩
  have hs : Significand (nearest n) k (t + d : Nat) := by
    refine ⟨hk, hk', by omega, by omega, ?_⟩
    rw [nearest, hvalue, ← ht, Nat.shiftLeft_eq, Int.toNat_natCast, Int.toNat_neg_natCast, pow_zero,
      mul_one, mul_assoc, ← pow_add, add_comm]
  refine ⟨k, _, hs, ?_⟩
  have htarget : max (totalExponent n 0 - 24) (-149) = (t : Int) := by
    rw [totalExponent]
    omega
  have hfirst : shiftToTargetExponent Format.binary32 n 0 .exact =
      (ExtendedMantissa.mk n false false >>> t, (t : Int)) := by
    rw [shiftToTargetExponent, targetExponent_single, htarget, shiftToExponent]
    simp [ExtendedMantissa.ofMantissaAndAccuracy]
  have hsecond : shiftToTargetExponent Format.binary32 (roundShift n t) t .exact =
      (⟨k, false, false⟩, ((t + d : Nat) : Int)) :=
    hs.canonical.shift (by omega) (by rw [ht, hvalue]; congr 2; omega)
  rw [ofNat_eq_round (by omega), UnpackedFloat.round]
  simp only [decreaseExponent, targetExponent_single, htarget]
  rw [show (0 - (t : Int)).toNat = 0 by omega, Nat.shiftLeft_zero, Nat.cast_zero, sub_zero,
    roundWithAccuracy, hfirst]
  simp only [roundedMantissa_shiftRight, hsecond, hs.pos.ne', dite_false]

/-- Up to 24 bits nothing is rounded. -/
theorem nearest_of_lt (hn : n < 2 ^ 24) : nearest n = n := by
  have hlog : n.log2 - 23 = 0 := by
    by_cases hzero : n = 0
    · subst hzero
      rfl
    · have := (Nat.log2_lt hzero).2 hn
      omega
  rw [nearest, hlog, ← roundedMantissa_shiftRight]
  rfl

/-- What a positive whole number is rounded to is a number of the format. -/
theorem significand_nearest (hpos : 0 < n) (hword : n < 2 ^ 64) :
    ∃ k e, ∃ h : Significand (nearest n) k e,
      UnpackedFloat.ofNat Format.binary32 n = .finite .positive k e h.pos := by
  by_cases hlow : n < 2 ^ 24
  · rw [nearest_of_lt hlow]
    rcases short_of_lt hlow with rfl | ⟨k, e, h⟩
    · exact absurd hpos (lt_irrefl 0)
    · exact ⟨k, e, h, h.ofNat⟩
  · exact significand_nearest_of_le (not_lt.1 hlow) hword

theorem short_nearest (hn : n < 2 ^ 64) : Short (nearest n) := by
  rcases Nat.eq_zero_or_pos n with rfl | hpos
  · exact .inl rfl
  · obtain ⟨k, e, h, -⟩ := significand_nearest hpos hn
    exact .inr ⟨k, e, h⟩

theorem nearest_le (hn : n < 2 ^ j) : nearest n ≤ 2 ^ j := by
  by_cases hlow : n < 2 ^ 24
  · rw [nearest_of_lt hlow]
    exact hn.le
  · have hlog := (Nat.log2_lt (by omega)).2 hn
    have hlog' : 24 ≤ n.log2 := (Nat.le_log2 (by omega)).2 (not_lt.1 hlow)
    rw [nearest, Nat.shiftLeft_eq]
    calc roundShift n (n.log2 - 23) * 2 ^ (n.log2 - 23)
        ≤ 2 ^ 24 * 2 ^ (n.log2 - 23) := Nat.mul_le_mul_right _ (roundShift_bounds (not_lt.1 hlow)).2
      _ = 2 ^ (24 + (n.log2 - 23)) := (pow_add ..).symm
      _ ≤ 2 ^ j := Nat.pow_le_pow_right (by decide) (by omega)

end Rounding

namespace Single

open Rounding

variable {n : Nat}

/-- A positive whole number as a single. -/
theorem unpack_ofNat_nearest (hpos : 0 < n) (hn : n < 2 ^ 64) :
    ∃ k e, ∃ h : Significand (nearest n) k e,
      (ofNat n).toModel.unpack = .finite .positive k e h.pos := by
  obtain ⟨k, e, h, heq⟩ := significand_nearest hpos hn
  refine ⟨k, e, h, ?_⟩
  show UnpackedFloat.unpack Format.binary32 (UnpackedFloat.pack Format.binary32
    (UnpackedFloat.ofNat Format.binary32 n.toUInt64.toNat)) = _
  rw [toNat_toUInt64 hn, heq, h.canonical.unpack_pack h.most]

/-- A whole number becomes the single that is nearest to it. -/
theorem ofNat_nearest (hn : n < 2 ^ 63) : ofNat (nearest n) = ofNat n := by
  rcases Nat.eq_zero_or_pos n with rfl | hpos
  · rfl
  have hle := nearest_le hn
  obtain ⟨k, e, h, heq⟩ := unpack_ofNat_nearest hpos (by omega)
  apply eq_of_unpack
  rw [heq, unpack_ofNat (by omega) h]

/-- The way to a single and back rounds to the nearest one. -/
theorem toNat_ofNat_nearest (hn : n < 2 ^ 63) : toNat (ofNat n) = nearest n := by
  have hle := nearest_le hn
  rw [← ofNat_nearest hn, toNat_ofNat (by omega) (short_nearest (by omega))]

end Single

end Patchbay
