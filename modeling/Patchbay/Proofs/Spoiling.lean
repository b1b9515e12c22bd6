import Mathlib
import Patchbay.Proofs.Extremes
import Patchbay.Proofs.WholeNumber
import Patchbay.Proofs.Zero

/-!
# What spoils a sum

A zero silences a number and nothing else, and whatever meets a NaN is one. Only numbers have a
finite difference, and those that are not huge always have one.
-/

set_option autoImplicit false

namespace Patchbay

open Float.Model Float.Model.UnpackedFloat

namespace Rounding

/-- A number in single precision that does not overflow. -/
def Roomy : UnpackedFloat → Prop
  | .zero _ => True
  | .finite _ _ e _ => e ≤ 104
  | _ => False

theorem round_roomy (s : Sign) {m : Nat} {e : Int} (hpos : 0 < m)
    (h : m < 2 ^ (127 - e).toNat) : Roomy (UnpackedFloat.round Format.binary32 s m e) := by
  have hlog : m.log2 < (127 - e).toNat := (Nat.log2_lt hpos.ne').2 h
  simp only [UnpackedFloat.round, decreaseExponent, targetExponent_single]
  generalize hj : (e - max (totalExponent m e - 24) (-149)).toNat = j
  obtain ⟨r, m', e₁, e', hround, he₁, -, hr, he', -⟩ :=
    round_spec targetExponent_single s (m <<< j) (e - j) .exact
  rw [log2_shiftLeft _ _ hpos.ne'] at hr
  rw [totalExponent, log2_shiftLeft _ _ hpos.ne'] at he₁
  rw [hround]
  split
  · trivial
  · simp only [Roomy, totalExponent] at *
    omega

theorem normalize_roomy (s : Sign) {m : Int} {e : Int} (h : m.natAbs < 2 ^ (127 - e).toNat) :
    Roomy (UnpackedFloat.normalize Format.binary32 m e s) := by
  rw [UnpackedFloat.normalize]
  rcases lt_trichotomy m 0 with hm | rfl | hm
  · rw [compare_lt_iff_lt.2 hm]
    exact round_roomy _ (by omega) (by omega)
  · trivial
  · rw [compare_gt_iff_gt.2 hm]
    exact round_roomy _ (by omega) (by omega)

theorem decreaseExponent_lt {m : Nat} {e k : Int} (hk : k ≤ e) (h : totalExponent m e ≤ 126) :
    (decreaseExponent m e k).1 < 2 ^ (126 - k).toNat := by
  rw [totalExponent] at h
  calc m <<< (e - k).toNat = m * 2 ^ (e - k).toNat := Nat.shiftLeft_eq _ _
    _ < 2 ^ (m.log2 + 1) * 2 ^ (e - k).toNat :=
      Nat.mul_lt_mul_of_pos_right Nat.lt_log2_self (Nat.two_pow_pos _)
    _ ≤ 2 ^ (126 - k).toNat := by
      rw [← pow_add]
      exact Nat.pow_le_pow_right (by decide) (by omega)

theorem natAbs_apply_sub_lt (s s' : Sign) {a b c : Nat} (ha : a < c) (hb : b < c) :
    (s.apply a - s'.apply b).natAbs < c * 2 := by
  cases s <;> cases s' <;> simp only [Sign.apply] <;> omega

theorem Canonical.roomy {s : Sign} {m : Nat} {e : Int} {hm : 0 < m}
    (h : Canonical (.finite s m e hm)) (hb : totalExponent m e ≤ 126) : e ≤ 104 := by
  rcases h.2.2 with hlow | rfl
  · have hlog := (Nat.le_log2 hm.ne').2 hlow
    rw [totalExponent] at hb
    omega
  · decide

/-- Numbers that are not huge have a difference that does not overflow. -/
theorem sub_roomy {u v : UnpackedFloat} (hu : Canonical u) (hv : Canonical v) (hbu : Below 126 u)
    (hbv : Below 126 v) : Roomy (UnpackedFloat.sub Format.binary32 u v) := by
  cases u with
  | infinity s => cases hbu
  | notANumber => cases hbu
  | zero s =>
    cases v with
    | infinity s' => cases hbv
    | notANumber => cases hbv
    | zero s' =>
      rw [UnpackedFloat.sub]
      split <;> trivial
    | finite s' m' e' hm' => exact hv.roomy hbv
  | finite s m e hm =>
    cases v with
    | infinity s' => cases hbv
    | notANumber => cases hbv
    | zero s' => exact hu.roomy hbu
    | finite s' m' e' hm' =>
      have hleft := decreaseExponent_lt (min_le_left e e') hbu
      have hright := decreaseExponent_lt (min_le_right e e') hbv
      have hplace := hu.roomy hbu
      have hdouble : 2 ^ (127 - Min.min e e').toNat = 2 ^ (126 - Min.min e e').toNat * 2 := by
        rw [← pow_succ]
        congr 1
        omega
      apply normalize_roomy
      rw [hdouble]
      exact natAbs_apply_sub_lt s s' hleft hright

theorem isFinite_pack_single {u : UnpackedFloat} (h : Roomy u) :
    (UnpackedFloat.unpack Format.binary32 (UnpackedFloat.pack Format.binary32 u)).isFinite = true := by
  have hfinite {word : BitVec Format.binary32.numBits} (hword : unpackExponent word ≠ -1#_) :
      (UnpackedFloat.unpack Format.binary32 word).isFinite = true := by
    rw [UnpackedFloat.unpack]
    simp only [if_neg hword]
    split
    · split <;> rfl
    · rfl
  apply hfinite
  cases u with
  | infinity s => cases h
  | notANumber => cases h
  | zero s =>
    rw [UnpackedFloat.pack, packedZero, unpackExponent_packComponents]
    decide
  | finite s m e hm =>
    have hfield : (e + 150).toNat < 255 := by
      rw [Roomy] at h
      omega
    rw [UnpackedFloat.pack]
    simp only [biased_single]
    rw [if_neg (show ¬2 ^ 8 ≤ (e + 150).toNat + 1 by omega)]
    split
    · rw [unpackExponent_packComponents]
      intro heq
      have hones : (e + 150).toNat % 2 ^ 8 = 255 := by
        rw [← BitVec.toNat_ofNat]
        exact congrArg BitVec.toNat heq
      omega
    · rw [unpackExponent_packComponents]
      decide

end Rounding

namespace Single

open Rounding

variable {x y z : Float32}

theorem not_finite_cases (h : x.isFinite = false) : x = nan ∨ x = infinity ∨ x = negInfinity := by
  change x.toModel.unpack.isFinite = false at h
  cases hu : x.toModel.unpack with
  | notANumber => exact .inl (eq_of_unpack (hu.trans rfl))
  | infinity s =>
    cases s with
    | negative => exact .inr (.inr (eq_of_unpack (hu.trans rfl)))
    | positive => exact .inr (.inl (eq_of_unpack (hu.trans rfl)))
  | zero s => simp [hu, UnpackedFloat.isFinite] at h
  | finite s m e hm => simp [hu, UnpackedFloat.isFinite] at h

/-- Only numbers have a finite difference. -/
theorem finite_of_sub (h : (x - y).isFinite = true) : x.isFinite = true ∧ y.isFinite = true := by
  have hsub : (UnpackedFloat.sub Format.binary32 x.toModel.unpack y.toModel.unpack).isFinite = true :=
    finite_of_pack h
  change x.toModel.unpack.isFinite = true ∧ y.toModel.unpack.isFinite = true
  generalize x.toModel.unpack = u at *
  generalize y.toModel.unpack = v at *
  rcases u with s | - | s | ⟨s, m, e, hm⟩ <;> rcases v with s' | - | s' | ⟨s', m', e', hm'⟩
  all_goals try exact ⟨rfl, rfl⟩
  all_goals
    simp only [UnpackedFloat.sub] at hsub
    try split at hsub
    all_goals cases hsub

theorem add_eq (x y : Float32) : x + y = .ofModel
    (.pack (UnpackedFloat.add Format.binary32 x.toModel.unpack y.toModel.unpack)) := rfl

theorem add_nan (x : Float32) : x + nan = nan := by
  rw [add_eq]
  cases x.toModel.unpack <;> rfl

/-- A zero silences a number. -/
theorem mul_zero_of_number (hx : x.isFinite = true) (hz : (z == 0.0) = true) :
    (x * z == 0.0) = true ∧ (z * x == 0.0) = true := by
  obtain ⟨s, hs⟩ := unpack_of_zero hz
  change x.toModel.unpack.isFinite = true at hx
  rw [mul_eq, mul_eq, hs]
  generalize x.toModel.unpack = u at hx
  cases u with
  | notANumber => cases hx
  | infinity s => cases hx
  | zero s' => exact ⟨packed_zero _, packed_zero _⟩
  | finite s' m e hm => exact ⟨packed_zero _, packed_zero _⟩

/-- A zero does not silence anything else. -/
theorem mul_zero_of_not (hx : x.isFinite = false) (hz : (z == 0.0) = true) :
    x * z = nan ∧ z * x = nan := by
  rcases not_finite_cases hx with rfl | rfl | rfl <;> rcases zero_cases hz with rfl | rfl <;> decide

/-- Either zero changes nothing but the sign of a zero. -/
theorem same_add_of_zero (x : Float32) (hz : (z == 0.0) = true) : Same (x + z) x := by
  rcases zero_cases hz with rfl | rfl
  · exact same_add_zero x
  · refine (same_iff _ _).2 (.inl ?_)
    rw [add_eq, show (-0 : Float32).toModel.unpack = .zero .negative from rfl]
    refine Eq.trans ?_ (pack_unpack x)
    rcases x.toModel.unpack with s | - | s | ⟨s, m, e, hm⟩ <;> try cases s
    all_goals rfl

theorem finite_of_same (h : Same x y) (hy : y.isFinite = true) : x.isFinite = true := by
  rcases (same_iff _ _).1 h with rfl | ⟨hx, -⟩
  · exact hy
  · rcases zero_cases hx with rfl | rfl <;> rfl

theorem flushDenormal_same (h : Same x y) : flushDenormal x = flushDenormal y := by
  have hflush {z : Float32} (hz : (z == 0.0) = true) : flushDenormal z = 0.0 := by
    rcases zero_cases hz with rfl | rfl <;> decide
  rcases (same_iff _ _).1 h with rfl | ⟨hx, hy⟩
  · rfl
  · rw [hflush hx, hflush hy]

theorem flushDenormal_of_not (h : x.isFinite = false) : flushDenormal x = x := by
  rcases not_finite_cases h with rfl | rfl | rfl <;> decide

/-- A number below `2 ^ 126` on either side. -/
def Moderate (x : Float32) : Prop :=
  Float32.ofBits 0xfe800000 < x ∧ x < Float32.ofBits 0x7e800000

theorem Moderate.below (h : Moderate x) : Below 126 x.toModel.unpack := by
  have hcanonical := canonical x
  obtain ⟨-, hnumber, hlow⟩ := (lt_iff_place _ _).1 h.1
  obtain ⟨-, -, hhigh⟩ := (lt_iff_place _ _).1 h.2
  rw [show place (Float32.ofBits 0xfe800000) = toLex (-1, toLex (-103, -2 ^ 23)) from rfl,
    place] at hlow
  rw [show place (Float32.ofBits 0x7e800000) = toLex (1, toLex (103, 2 ^ 23)) from rfl,
    place] at hhigh
  change x.toModel.unpack.isNaN = false at hnumber
  generalize x.toModel.unpack = u at *
  cases u with
  | notANumber => cases hnumber
  | infinity s =>
    cases s with
    | negative => simp [rank, Prod.Lex.toLex_lt_toLex] at hlow
    | positive => simp [rank, Prod.Lex.toLex_lt_toLex] at hhigh
  | zero s => trivial
  | finite s m e hm =>
    obtain ⟨hbits, -, hplace⟩ := hcanonical
    have hlog : m.log2 < 24 := (Nat.log2_lt hm.ne').2 hbits
    have he : e < 103 := by
      cases s with
      | negative =>
        have horder : e < 103 ∨ e = 103 ∧ (m : Int) < 2 ^ 23 := by
          simpa [rank, Prod.Lex.toLex_lt_toLex, eq_comm] using hlow
        omega
      | positive =>
        have horder : e < 103 ∨ e = 103 ∧ (m : Int) < 2 ^ 23 := by
          simpa [rank, Prod.Lex.toLex_lt_toLex] using hhigh
        omega
    rw [Below, totalExponent]
    omega

/-- Moderate numbers have a finite difference. -/
theorem Moderate.sub (hx : Moderate x) (hy : Moderate y) : (x - y).isFinite = true :=
  isFinite_pack_single (sub_roomy (canonical x) (canonical y) hx.below hy.below)

theorem Moderate.flushDenormal (h : Moderate x) : Moderate (flushDenormal x) := by
  rw [Patchbay.flushDenormal]
  split
  · exact ⟨by decide, by decide⟩
  · exact h

end Single

end Patchbay
