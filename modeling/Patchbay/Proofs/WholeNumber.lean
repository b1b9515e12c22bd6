import Mathlib
import Patchbay.Number.Single
import Patchbay.Proofs.FiniteDouble

/-!
# Whole parts of singles

A single is cut down to a word and a word is rounded to a single. Of the way there and back one
thing counts: the whole part of a single has at most 24 significant bits, so it is rounded to
itself, and what is bounded by it has no greater whole part.
-/

set_option autoImplicit false

namespace Patchbay

open Float.Model Float.Model.UnpackedFloat

namespace Rounding

/-- The whole part of `m * 2 ^ e`. -/
def whole (m : Nat) (e : Int) : Nat := m * 2 ^ e.toNat / 2 ^ (-e).toNat

theorem whole_mul_pow (m d : Nat) (e : Int) : whole (m * 2 ^ d) e = whole m (e + d) := by
  rw [whole, whole, mul_assoc, ← pow_add]
  have hsplit : d + e.toNat = (e + d).toNat + ((-e).toNat - (-(e + d)).toNat) := by omega
  have hsplit' : (-e).toNat = (-(e + d)).toNat + ((-e).toNat - (-(e + d)).toNat) := by omega
  generalize (-e).toNat - (-(e + d)).toNat = j at *
  rw [hsplit, hsplit', pow_add, pow_add, ← mul_assoc,
    Nat.mul_div_mul_right _ _ (Nat.two_pow_pos j)]

theorem whole_le_whole {m m' : Nat} (h : m ≤ m') (e : Int) : whole m e ≤ whole m' e :=
  Nat.div_le_div_right (Nat.mul_le_mul_right _ h)

theorem roundToInt_eq (s : Sign) (m : Nat) (e : Int) : roundToInt s m e = s.apply (whole m e) := by
  have hshift : (0 - (e - ((e - 0).toNat : Int))).toNat = (-e).toNat := by omega
  rw [roundToInt]
  simp only [decreaseExponent, shiftToExponent, shiftRight_mantissa, mantissa_ofAccuracy, hshift]
  rw [whole, Nat.shiftLeft_eq, sub_zero]

/-- Whole parts keep the order of numbers with their first bit in place. -/
theorem whole_mono {m m' : Nat} {e e' : Int} (hm : m < 2 ^ 24) (hm' : 2 ^ 23 ≤ m')
    (hle : e < e' ∨ e = e' ∧ m ≤ m') : whole m e ≤ whole m' e' := by
  rcases hle with hlt | ⟨rfl, hle⟩
  · have hd : e' = e + ((e' - e).toNat - 1 + 1 : Nat) := by omega
    generalize (e' - e).toNat - 1 = d at hd
    have hpos : 1 ≤ 2 ^ d := Nat.one_le_two_pow
    rw [hd, ← whole_mul_pow]
    apply whole_le_whole
    calc m ≤ m' * 2 := by omega
      _ ≤ m' * 2 ^ (d + 1) := Nat.mul_le_mul_left _ (by rw [pow_succ]; omega)
  · exact whole_le_whole hle e

/-- The numbers of the format: 24 bits, the first of them 1 unless the exponent is the least one. -/
def Canonical : UnpackedFloat → Prop
  | .finite _ m e _ => m < 2 ^ 24 ∧ -149 ≤ e ∧ (2 ^ 23 ≤ m ∨ e = -149)
  | _ => True

theorem append_bounds (low : BitVec 23) :
    2 ^ 23 ≤ (1#1 ++ low).toNat ∧ (1#1 ++ low).toNat < 2 ^ 24 := by
  have hlow := low.isLt
  rw [BitVec.toNat_append, ← Nat.shiftLeft_add_eq_or_of_lt hlow]
  simp [Nat.shiftLeft_eq]
  omega

theorem canonical_unpack (word : BitVec Format.binary32.numBits) :
    Canonical (UnpackedFloat.unpack Format.binary32 word) := by
  rw [UnpackedFloat.unpack]
  simp only
  split
  · split <;> trivial
  · split
    · next hzero =>
      split
      · trivial
      · have hlow : (unpackMantissa word).toNat < 2 ^ 23 := (unpackMantissa word).isLt
        exact ⟨by omega, by rw [hzero]; decide, .inr (by rw [hzero]; decide)⟩
    · next hzero =>
      have hfield : (unpackExponent word).toNat ≠ 0 := fun h =>
        hzero (BitVec.eq_of_toNat_eq h)
      have hbias : ((Format.binary32.exponentBias : Int) +
        (Format.binary32.mantissaBitsWithoutImplicit : Nat)) = 150 := by decide
      obtain ⟨hlow, hhigh⟩ := append_bounds (unpackMantissa word)
      exact ⟨hhigh, by rw [hbias]; omega, .inl hlow⟩

/-- The whole part of a number at least one, 0 for others. -/
def wholePart : UnpackedFloat → Nat
  | .finite .positive m e _ => whole m e
  | .infinity .positive => 2 ^ 64 - 1
  | _ => 0

theorem toNat_toInt (u : UnpackedFloat) : (u.toInt 0 (2 ^ 64 - 1)).toNat = wholePart u := by
  cases u with
  | finite s m e hm =>
    rw [UnpackedFloat.toInt, roundToInt_eq]
    cases s with
    | positive => simp [Sign.apply, wholePart]
    | negative => simp [Sign.apply, wholePart]
  | infinity s => cases s <;> rfl
  | zero s => rfl
  | notANumber => rfl

theorem toNat_eq (x : Float32) :
    Single.toNat x = min (wholePart x.toModel.unpack) (2 ^ 64 - 1) := by
  rw [← toNat_toInt]
  show (UInt64.ofNatClamp (x.toModel.unpack.toInt 0 (2 ^ 64 - 1)).toNat).toNat = _
  generalize (x.toModel.unpack.toInt 0 (2 ^ 64 - 1)).toNat = n
  rw [UInt64.ofNatClamp]
  split
  · next h =>
    have hn : n < 2 ^ 64 := h
    rw [UInt64.toNat_ofNatLT]
    omega
  · next h =>
    have hn : ¬n < 2 ^ 64 := h
    rw [UInt64.toNat_ofNatLT, show UInt64.size - 1 = 2 ^ 64 - 1 from rfl]
    omega

theorem targetExponent_single (t : Int) :
    Format.binary32.targetExponent t = max (t - 24) (-149) := by
  rw [Format.targetExponent]
  rfl

theorem shiftRight_exact (m n : Nat) (h : 2 ^ n ∣ m) :
    ExtendedMantissa.mk m false false >>> n = ExtendedMantissa.mk (m / 2 ^ n) false false := by
  show n.repeat ExtendedMantissa.shiftRightOne _ = _
  induction n with
  | zero => simp [Nat.repeat]
  | succ n ih =>
    rw [Nat.repeat, ih ((pow_dvd_pow 2 n.le_succ).trans h), ExtendedMantissa.shiftRightOne]
    obtain ⟨k, rfl⟩ := h
    have hodd : 2 ^ (n + 1) * k / 2 ^ n = 2 * k := by
      rw [pow_succ, mul_assoc, Nat.mul_div_cancel_left _ (Nat.two_pow_pos n)]
    rw [hodd, Nat.mul_div_cancel_left _ (Nat.two_pow_pos _)]
    simp

/-- Nothing is lost by a shift to the place where a number of the format begins. -/
theorem Canonical.shift {s : Sign} {k : Nat} {e : Int} {hk : 0 < k}
    (h : Canonical (.finite s k e hk)) {m : Nat} {e' : Int} (hle : e' ≤ e)
    (hm : m = k * 2 ^ (e - e').toNat) :
    shiftToTargetExponent Format.binary32 m e' .exact = (⟨k, false, false⟩, e) := by
  obtain ⟨hhigh, hleast, hplace⟩ := h
  have hlog : m.log2 = k.log2 + (e - e').toNat := by
    rw [hm, ← Nat.shiftLeft_eq, log2_shiftLeft _ _ hk.ne']
  have hbits : k.log2 < 24 := (Nat.log2_lt hk.ne').2 hhigh
  have hfirst : k.log2 = 23 ∨ e = -149 :=
    hplace.imp_left fun hlow => (Nat.log2_eq_iff hk.ne').2 ⟨hlow, hhigh⟩
  have htarget : max (totalExponent m e' - 24) (-149) = e := by
    rw [totalExponent, hlog]
    omega
  have hshift := shiftRight_exact m (e - e').toNat ⟨k, by rw [hm, mul_comm]⟩
  rw [hm, Nat.mul_div_cancel _ (Nat.two_pow_pos _), ← hm] at hshift
  rw [shiftToTargetExponent, targetExponent_single, htarget, shiftToExponent, Prod.mk.injEq]
  exact ⟨hshift, by omega⟩

/-- What the format holds is rounded to itself. -/
theorem Canonical.round {s : Sign} {k : Nat} {e : Int} {hk : 0 < k}
    (h : Canonical (.finite s k e hk)) {m : Nat} {e' : Int} (hle : e' ≤ e)
    (hm : m = k * 2 ^ (e - e').toNat) :
    roundWithAccuracy Format.binary32 s m e' .exact = .finite s k e hk := by
  have hagain : shiftToTargetExponent Format.binary32 k e .exact = (⟨k, false, false⟩, e) :=
    h.shift le_rfl (by simp)
  rw [roundWithAccuracy, h.shift hle hm]
  simp only [ExtendedMantissa.roundedMantissa, ExtendedMantissa.accuracy,
    Accuracy.roundToNearestEven, hagain, hk.ne', dite_false]

/-- The number `n` is `k * 2 ^ e`, and that is how the format holds it. -/
structure Significand (n k : Nat) (e : Int) : Prop where
  low : 2 ^ 23 ≤ k
  high : k < 2 ^ 24
  least : -149 ≤ e
  most : e ≤ 104
  value : n * 2 ^ (-e).toNat = k * 2 ^ e.toNat

/-- The whole numbers that the format holds exactly. -/
def Short (n : Nat) : Prop := n = 0 ∨ ∃ k e, Significand n k e

section

variable {n k : Nat} {e : Int}

theorem Significand.whole (h : Significand n k e) : whole k e = n := by
  rw [Rounding.whole, ← h.value, Nat.mul_div_cancel _ (Nat.two_pow_pos _)]

theorem Significand.log2 (h : Significand n k e) : k.log2 = 23 := by
  have hlow := h.low
  rw [Nat.log2_eq_iff (by omega)]
  exact ⟨hlow, h.high⟩

theorem Significand.pos (h : Significand n k e) : 0 < k := lt_of_lt_of_le (by decide) h.low

theorem Significand.log2_value (h : Significand n k e) : n ≠ 0 ∧ (n.log2 : Int) = 23 + e := by
  have hk := h.pos
  have hn : n ≠ 0 := by
    rintro rfl
    have hpos : 0 < k * 2 ^ e.toNat := Nat.mul_pos hk (Nat.two_pow_pos _)
    have hvalue := h.value
    omega
  have hlogs := congrArg Nat.log2 h.value
  rw [← Nat.shiftLeft_eq, ← Nat.shiftLeft_eq, log2_shiftLeft _ _ hn, log2_shiftLeft _ _ hk.ne',
    h.log2] at hlogs
  exact ⟨hn, by omega⟩

theorem Significand.canonical (h : Significand n k e) : Canonical (.finite .positive k e h.pos) :=
  ⟨h.high, h.least, .inl h.low⟩

/-- Wherever the point is put, a number that the format holds is rounded to itself. -/
theorem Significand.round (h : Significand n k e) (d : Nat) :
    UnpackedFloat.round Format.binary32 .positive (n * 2 ^ d) (-d) =
      .finite .positive k e h.pos := by
  obtain ⟨hn, hlog⟩ := h.log2_value
  have hleast := h.least
  have hlogs : (n * 2 ^ d).log2 = n.log2 + d := by
    rw [← Nat.shiftLeft_eq, log2_shiftLeft _ _ hn]
  have htarget : max (totalExponent (n * 2 ^ d) (-d) - 24) (-149) = e := by
    rw [totalExponent]
    omega
  simp only [UnpackedFloat.round, decreaseExponent, targetExponent_single, htarget]
  -- a small number is moved up first and then stays, a great one is cut down in the rounding
  refine h.canonical.round (by omega) ?_
  have hvalue := h.value
  rw [Nat.shiftLeft_eq, mul_assoc, ← pow_add]
  obtain ⟨j, hj⟩ : ∃ j, d + (-(d : Int) - e).toNat = (-e).toNat + j ∧
      (e - (-d - ((-(d : Int) - e).toNat : Int))).toNat = e.toNat + j :=
    ⟨d + (-(d : Int) - e).toNat - (-e).toNat, by omega⟩
  rw [hj.1, hj.2, pow_add, pow_add, ← mul_assoc, ← mul_assoc, hvalue]

/-- With a lesser exponent a number that the format holds is a greater multiple. -/
theorem Significand.lower (h : Significand n k e) (d : Nat) :
    n * 2 ^ (-(e - d)).toNat = k * 2 ^ d * 2 ^ (e - d).toNat := by
  obtain ⟨j, hj⟩ : ∃ j, (-(e - d)).toNat = (-e).toNat + j ∧ e.toNat + j = d + (e - d).toNat :=
    ⟨(-(e - d)).toNat - (-e).toNat, by omega⟩
  rw [hj.1, pow_add, ← mul_assoc, h.value, mul_assoc, ← pow_add, hj.2, pow_add, mul_assoc]

/-- A whole part is less than a number that the format holds when the fraction is. -/
theorem Significand.whole_lt (h : Significand n k e) {m : Nat} {e' : Int} (hm : m < 2 ^ 24)
    (hlt : e' < e ∨ e' = e ∧ m < k) : Rounding.whole m e' < n := by
  obtain ⟨d, rfl⟩ : ∃ d : Nat, e' = e - d := ⟨(e - e').toNat, by omega⟩
  have hscaled : m < k * 2 ^ d := by
    rcases d with - | d
    · omega
    · calc m < 2 ^ 23 * 2 := by omega
        _ ≤ k * 2 ^ (d + 1) := Nat.mul_le_mul h.low (Nat.le_pow (Nat.succ_pos d))
  rw [Rounding.whole, Nat.div_lt_iff_lt_mul (Nat.two_pow_pos _), h.lower d]
  exact Nat.mul_lt_mul_of_pos_right hscaled (Nat.two_pow_pos _)

theorem ofNat_eq_round (hn : n ≠ 0) :
    UnpackedFloat.ofNat Format.binary32 n = UnpackedFloat.round Format.binary32 .positive n 0 := by
  have hcompare : compare (n : Int) 0 = .gt := by
    rw [compare_gt_iff_gt]
    omega
  rw [UnpackedFloat.ofNat, UnpackedFloat.ofInt, UnpackedFloat.normalize, hcompare]
  rfl

theorem Significand.ofNat (h : Significand n k e) :
    UnpackedFloat.ofNat Format.binary32 n = .finite .positive k e h.pos := by
  have hround := h.round 0
  rw [pow_zero, mul_one] at hround
  rw [ofNat_eq_round h.log2_value.1]
  exact hround

theorem biased_single (e : Int) :
    e + (Format.binary32.exponentBias : Int) + (23 : Nat) = e + 150 := by
  rw [add_assoc]
  rfl

/-- A number of the format that does not overflow is found again in its word. -/
theorem Canonical.unpack_pack {s : Sign} {m : Nat} {e : Int} {hm : 0 < m}
    (h : Canonical (.finite s m e hm)) (most : e ≤ 104) :
    UnpackedFloat.unpack Format.binary32
      (UnpackedFloat.pack Format.binary32 (.finite s m e hm)) = .finite s m e hm := by
  obtain ⟨hhigh, hleast, hplace⟩ := h
  have hfit : ¬2 ^ Format.binary32.exponentBits ≤ (e + 150).toNat + 1 := by
    show ¬2 ^ 8 ≤ _
    omega
  have hbias : (Format.binary32.exponentBias : Int) +
      (Format.binary32.mantissaBitsWithoutImplicit : Nat) = 150 := by decide
  rw [UnpackedFloat.pack]
  simp only [biased_single, if_neg hfit]
  by_cases hlow : 2 ^ 23 ≤ m
  · have hlog : m.log2 + 1 = Format.binary32.mantissaBits := by
      rw [(Nat.log2_eq_iff hm.ne').2 ⟨hlow, hhigh⟩]
      rfl
    have hfield : (BitVec.ofNat 8 (e + 150).toNat).toNat = (e + 150).toNat := by
      rw [BitVec.toNat_ofNat, Nat.mod_eq_of_lt (by omega)]
    have hones : BitVec.ofNat 8 (e + 150).toNat ≠ -1#8 := by
      intro heq
      rw [heq, show (-1#8).toNat = 255 by decide] at hfield
      omega
    have hzero : BitVec.ofNat 8 (e + 150).toNat ≠ 0#8 := by
      intro heq
      rw [heq, show (0#8).toNat = 0 by decide] at hfield
      omega
    have hmantissa : (1#1 ++ BitVec.ofNat 23 m).toNat = m := by
      rw [BitVec.toNat_append, ← Nat.shiftLeft_add_eq_or_of_lt (BitVec.isLt _), BitVec.toNat_ofNat]
      simp [Nat.shiftLeft_eq]
      omega
    rw [if_pos hlog, UnpackedFloat.unpack]
    simp only [unpackExponent_packComponents, unpackMantissa_packComponents,
      unpackSign_packComponents]
    rw [if_neg hones, if_neg hzero]
    simp only [finite.injEq, hmantissa, hfield, Sign.ofBitVec_toBitVec, true_and]
    rw [hbias]
    omega
  · -- below the first bit the exponent is the least one, and its field is zero
    have hlog : ¬m.log2 + 1 = Format.binary32.mantissaBits := by
      have hless : m.log2 < 23 := (Nat.log2_lt hm.ne').2 (by omega)
      show ¬m.log2 + 1 = 24
      omega
    have hfield : (BitVec.ofNat 23 m).toNat = m := by
      rw [BitVec.toNat_ofNat, Nat.mod_eq_of_lt (by omega)]
    have hzero : BitVec.ofNat 23 m ≠ 0#23 := by
      intro heq
      rw [heq, show (0#23).toNat = 0 by decide] at hfield
      omega
    have hones : (0#8) ≠ -1#8 := by decide
    rw [if_neg hlog, UnpackedFloat.unpack]
    simp only [unpackExponent_packComponents, unpackMantissa_packComponents,
      unpackSign_packComponents]
    rw [if_neg hones, if_pos trivial, dif_neg hzero]
    simp only [finite.injEq, Sign.ofBitVec_toBitVec, true_and]
    refine ⟨hfield, ?_⟩
    rw [hbias, show (0#8).toNat = 0 by decide]
    omega

end

theorem short_of_lt {n : Nat} (h : n < 2 ^ 24) : Short n := by
  by_cases hn : n = 0
  · exact .inl hn
  have hlog : n.log2 < 24 := (Nat.log2_lt hn).2 h
  have hpow (j : Nat) (hj : n.log2 ≤ j) : 2 ^ n.log2 * 2 ^ (j - n.log2) = 2 ^ j := by
    rw [← pow_add]
    congr 1
    omega
  refine .inr ⟨n * 2 ^ (23 - n.log2), (n.log2 : Int) - 23, ?_, ?_, by omega, by omega, ?_⟩
  · rw [← hpow 23 (by omega)]
    exact Nat.mul_le_mul_right _ (Nat.log2_self_le hn)
  · rw [← hpow 24 (by omega), show 24 - n.log2 = 23 - n.log2 + 1 by omega, pow_succ', ← mul_assoc,
      ← pow_succ]
    exact Nat.mul_lt_mul_of_pos_right Nat.lt_log2_self (Nat.two_pow_pos _)
  · rw [show (-((n.log2 : Int) - 23)).toNat = 23 - n.log2 by omega,
      show ((n.log2 : Int) - 23).toNat = 0 by omega, pow_zero, mul_one]

theorem short_of_le {n : Nat} (h : n ≤ 2 ^ 24) : Short n := by
  rcases h.lt_or_eq with hlt | rfl
  · exact short_of_lt hlt
  · exact .inr ⟨2 ^ 23, 1, le_rfl, by decide, by decide, by decide, rfl⟩

theorem short_whole {m : Nat} {e : Int} (hm : 0 < m) (hhigh : m < 2 ^ 24)
    (hlow : 2 ^ 23 ≤ m ∨ e = -149) (h : whole m e < 2 ^ 64) : Short (whole m e) := by
  by_cases he : 0 ≤ e
  · have hw : whole m e = m * 2 ^ e.toNat := by
      rw [whole, show (-e).toNat = 0 by omega, pow_zero, Nat.div_one]
    have he' : e.toNat < 64 := by
      rw [← Nat.pow_lt_pow_iff_right (a := 2) (by decide)]
      have hle : 2 ^ e.toNat ≤ m * 2 ^ e.toNat := Nat.le_mul_of_pos_left _ hm
      omega
    refine .inr ⟨m, e, by omega, hhigh, by omega, by omega, ?_⟩
    rw [hw, show (-e).toNat = 0 by omega, pow_zero, mul_one]
  · have hle : whole m e ≤ m := by
      rw [whole, show e.toNat = 0 by omega, pow_zero, mul_one]
      exact Nat.div_le_self _ _
    exact short_of_lt (by omega)

end Rounding

namespace Single

open Rounding

/-- What a word stands for is canonical. -/
theorem canonical (x : Float32) : Canonical x.toModel.unpack := canonical_unpack _

theorem short_toNat {x : Float32} (h : toNat x < 2 ^ 64 - 1) : Short (toNat x) := by
  have hcanonical := canonical x
  have heq : toNat x = wholePart x.toModel.unpack := by
    rw [toNat_eq] at h ⊢
    omega
  rw [heq] at h ⊢
  generalize x.toModel.unpack = u at h hcanonical
  rcases u with (_ | _) | _ | _ | ⟨_ | _, m, e, hm⟩
  case finite.positive =>
    rw [wholePart] at h ⊢
    exact short_whole hm hcanonical.1 hcanonical.2.2 (by omega)
  case infinity.positive => exact absurd h (lt_irrefl _)
  all_goals exact .inl rfl

theorem toNat_toUInt64 {n : Nat} (h : n < 2 ^ 64) : n.toUInt64.toNat = n := by
  rw [Nat.toUInt64, UInt64.toNat_ofNat', Nat.mod_eq_of_lt h]

theorem unpack_ofNat {n k : Nat} {e : Int} (hn : n < 2 ^ 64) (h : Significand n k e) :
    (ofNat n).toModel.unpack = .finite .positive k e h.pos := by
  show UnpackedFloat.unpack Format.binary32 (UnpackedFloat.pack Format.binary32
    (UnpackedFloat.ofNat Format.binary32 n.toUInt64.toNat)) = _
  rw [toNat_toUInt64 hn, h.ofNat]
  exact h.canonical.unpack_pack h.most

/-- What a short number does not lie below has no greater whole part. -/
theorem wholePart_le {n : Nat} (hn : n < 2 ^ 64) (hs : Short n) {u : UnpackedFloat}
    (hu : Canonical u) (hle : ¬UnpackedFloat.lt (ofNat n).toModel.unpack u = true) :
    wholePart u ≤ n := by
  rcases hs with rfl | ⟨k, e, h⟩
  · rw [show (ofNat 0).toModel.unpack = .zero .positive from rfl] at hle
    rcases u with (_ | _) | _ | _ | ⟨_ | _, m, e, hm⟩
    case infinity.positive => exact absurd rfl hle
    case finite.positive => exact absurd rfl hle
    all_goals exact le_rfl
  · rw [unpack_ofNat hn h] at hle
    rcases u with (_ | _) | _ | _ | ⟨_ | _, m, e', hm⟩
    case infinity.positive => exact absurd rfl hle
    case finite.positive =>
      have horder : e' < e ∨ e' = e ∧ m ≤ k := by
        by_contra hcon
        apply hle
        rw [UnpackedFloat.lt, UnpackedFloat.compare]
        rcases lt_trichotomy e e' with hlt | heq | hgt
        · rw [compare_lt_iff_lt.2 hlt]
          rfl
        · have hk : k < m := by omega
          rw [compare_eq_iff_eq.2 heq, compare_lt_iff_lt.2 hk]
          rfl
        · omega
      rw [wholePart, ← h.whole]
      exact whole_mono hu.1 h.low horder
    all_goals exact Nat.zero_le _

theorem toNat_ofNat {n : Nat} (hn : n < 2 ^ 64) (hs : Short n) : toNat (ofNat n) = n := by
  rcases hs with rfl | ⟨k, e, h⟩
  · decide
  · rw [toNat_eq, unpack_ofNat hn h, wholePart, h.whole]
    omega

/-- A bound that is a short number bounds the whole part. -/
theorem toNat_min_le {n : Nat} (hn : n < 2 ^ 64) (hs : Short n) (x : Float32) :
    toNat (min x (ofNat n)) ≤ n := by
  rw [Single.min]
  split
  · exact (toNat_ofNat hn hs).le
  · split
    · exact (toNat_ofNat hn hs).le
    · next hle =>
      rw [toNat_eq]
      exact (min_le_left _ _).trans
        (wholePart_le hn hs (canonical_unpack _) fun hlt => hle (decide_eq_true hlt))

section

variable {a b n : Nat}

theorem isNaN_ofNat (h : n ≤ 2 ^ 24) : (ofNat n).isNaN = false := by
  rcases short_of_le h with rfl | ⟨k, e, hs⟩
  · rfl
  · show (ofNat n).toModel.unpack.isNaN = false
    rw [unpack_ofNat (by omega) hs]
    rfl

theorem lt_ofNat (hab : a < b) (hb : b < 2 ^ 24) : ofNat a < ofNat b := by
  by_contra hle
  have hbelow : wholePart (ofNat b).toModel.unpack ≤ a :=
    wholePart_le (by omega) (short_of_lt (by omega)) (canonical_unpack _) fun hlt =>
      hle (decide_eq_true hlt)
  have hwhole : toNat (ofNat b) ≤ a := by
    rw [toNat_eq]
    omega
  rw [toNat_ofNat (by omega) (short_of_lt hb)] at hwhole
  omega

/-- Up to the first gap the point of a whole number can be moved up without a loss. -/
theorem decreaseExponent_short {k : Nat} {e m : Int} (hs : Significand n k e) (h : n < 2 ^ 24)
    (hm : m ≤ e) : (decreaseExponent k e m).1 = n * 2 ^ (-m).toNat := by
  obtain ⟨hn, hlog⟩ := hs.log2_value
  have hlog' := (Nat.log2_lt hn).2 h
  have hvalue := hs.value
  rw [show e.toNat = 0 by omega, pow_zero, mul_one] at hvalue
  simp only [decreaseExponent, Nat.shiftLeft_eq]
  rw [← hvalue, mul_assoc, ← pow_add]
  congr 2
  omega

/-- Whole numbers up to the first gap are subtracted exactly. -/
theorem sub_ofNat (hba : b ≤ a) (ha : a < 2 ^ 24) : ofNat a - ofNat b = ofNat (a - b) := by
  have hsub : ofNat a - ofNat b = .ofModel (.pack (UnpackedFloat.sub Format.binary32
      (ofNat a).toModel.unpack (ofNat b).toModel.unpack)) := rfl
  have hof : ofNat (a - b) = .ofModel (.pack (UnpackedFloat.ofNat Format.binary32
      (a - b).toUInt64.toNat)) := rfl
  rw [hsub, hof, toNat_toUInt64 (by omega)]
  rcases short_of_lt (n := b) (by omega) with rfl | ⟨k, e, hk⟩
  · rcases short_of_lt ha with rfl | ⟨j, i, hj⟩
    · rfl
    · rw [unpack_ofNat (by omega) hj, Nat.sub_zero, hj.ofNat]
      rfl
  · rcases short_of_lt ha with rfl | ⟨j, i, hj⟩
    · exact absurd hk.log2_value.1 (by omega)
    obtain ⟨d, hd⟩ : ∃ d : Nat, Min.min i e = -d := by
      obtain ⟨hb, hlog⟩ := hk.log2_value
      have hlog' : b.log2 < 24 := (Nat.log2_lt hb).2 (by omega)
      exact ⟨(-Min.min i e).toNat, by omega⟩
    have hdiff : ((decreaseExponent j i (Min.min i e)).1 : Int) -
        (decreaseExponent k e (Min.min i e)).1 = ((a - b) * 2 ^ d : Nat) := by
      rw [decreaseExponent_short hj ha (min_le_left i e),
        decreaseExponent_short hk (by omega) (min_le_right i e), hd, neg_neg, Int.toNat_natCast,
        Nat.sub_mul, Nat.cast_sub (Nat.mul_le_mul_right _ hba)]
    rw [unpack_ofNat (by omega) hj, unpack_ofNat (by omega) hk]
    rw [hd] at hdiff
    simp only [UnpackedFloat.sub, Sign.apply, hd, hdiff]
    rcases short_of_lt (n := a - b) (by omega) with hz | ⟨l, f, hl⟩
    · rw [hz, Nat.zero_mul]
      rfl
    · have hpos : (0 : Int) < ((a - b) * 2 ^ d : Nat) := by
        rw [Nat.cast_pos]
        exact Nat.mul_pos (Nat.pos_of_ne_zero hl.log2_value.1) (Nat.two_pow_pos d)
      rw [UnpackedFloat.normalize, compare_gt_iff_gt.2 hpos, hl.ofNat]
      simp only [Int.toNat_natCast, hl.round d]

end

end Single

end Patchbay
