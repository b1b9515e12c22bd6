import Mathlib
import Patchbay.Proofs.Tuning

/-!
# Zeros and signs

A product with a zero and a quotient of a zero are zeros again, if they are numbers at all, and a
quotient keeps the sign of what is divided. These are facts about the cases of the format: no
rounding is looked into.
-/

set_option autoImplicit false

namespace Patchbay

open Float.Model Float.Model.UnpackedFloat

namespace Single

theorem isNaN_of_finite {x : Float32} (h : x.isFinite = true) : ¬x.isNaN = true := by
  change x.toModel.unpack.isFinite = true at h
  change ¬x.toModel.unpack.isNaN = true
  cases hu : x.toModel.unpack with
  | notANumber =>
    rw [hu] at h
    cases h
  | _ => exact Bool.false_ne_true

theorem mul_eq (x y : Float32) : x * y = .ofModel
    (.pack (UnpackedFloat.mul Format.binary32 x.toModel.unpack y.toModel.unpack)) := rfl

theorem div_eq (x y : Float32) : x / y = .ofModel
    (.pack (UnpackedFloat.div Format.binary32 x.toModel.unpack y.toModel.unpack)) := rfl

theorem unpack_of_zero {x : Float32} (h : (x == 0.0) = true) :
    ∃ s, x.toModel.unpack = .zero s := by
  rcases zero_cases h with rfl | rfl
  · exact ⟨.positive, rfl⟩
  · exact ⟨.negative, rfl⟩

theorem packed_zero (s : Sign) : (Float32.ofModel (.pack (.zero s)) == 0.0) = true := by
  cases s <;> decide

theorem zero_of_unpack {x : Float32} {s : Sign} (h : x.toModel.unpack = .zero s) :
    (x == 0.0) = true := by
  have hx := pack_unpack x
  rw [h] at hx
  rw [← hx]
  exact packed_zero s

/-- A product with a zero is a zero if it is a number at all. -/
theorem mul_zero_of_finite {x y : Float32} (hzero : (x == 0.0 || y == 0.0) = true)
    (h : (x * y).isFinite = true) : (x * y == 0.0) = true := by
  have hproduct : (∃ s, UnpackedFloat.mul Format.binary32 x.toModel.unpack y.toModel.unpack =
      .zero s) ∨ UnpackedFloat.mul Format.binary32 x.toModel.unpack y.toModel.unpack =
      .notANumber := by
    rw [Bool.or_eq_true] at hzero
    rcases hzero with hx | hy
    · obtain ⟨s, hs⟩ := unpack_of_zero hx
      rw [hs]
      cases y.toModel.unpack <;> simp [UnpackedFloat.mul]
    · obtain ⟨s, hs⟩ := unpack_of_zero hy
      rw [hs]
      cases x.toModel.unpack <;> simp [UnpackedFloat.mul]
  rw [mul_eq] at h ⊢
  rcases hproduct with ⟨s, hs⟩ | hs
  · rw [hs]
    exact packed_zero s
  · rw [hs] at h
    exact absurd h (by decide)

theorem same_mulAnnihilating {x y : Float32}
    (h : (x == 0.0 || y == 0.0) = true → (x * y).isFinite = true) :
    Same (x * y) (mulAnnihilating x y) := by
  rw [mulAnnihilating]
  split
  · next hzero => exact (same_iff _ _).2 (.inr ⟨mul_zero_of_finite hzero (h hzero), by decide⟩)
  · exact same_refl _

theorem zero_div {x y : Float32} (hx : (x == 0.0) = true) (hy : (0.0 : Float32) < y)
    (hf : y.isFinite = true) : (x / y == 0.0) = true := by
  obtain ⟨s, hs⟩ := unpack_of_zero hx
  rw [div_eq, hs]
  have hz : (0.0 : Float32).toModel.unpack = .zero .positive := by rfl
  have hpos : UnpackedFloat.lt (0.0 : Float32).toModel.unpack y.toModel.unpack = true :=
    of_decide_eq_true hy
  rw [hz] at hpos
  change y.toModel.unpack.isFinite = true at hf
  generalize y.toModel.unpack = u at hpos hf
  cases u with
  | finite s' m e hm =>
    exact packed_zero _
  | zero s' => cases hpos
  | infinity s' => cases hf
  | notANumber => cases hf

theorem finite_of_pack {u : UnpackedFloat} (h : (Float32.ofModel (.pack u)).isFinite = true) :
    u.isFinite = true := by
  cases u with
  | notANumber => exact absurd h (by decide)
  | infinity s => cases s <;> exact absurd h (by decide)
  | zero s => rfl
  | finite s m e hm => rfl

theorem isFinite_div_of_not {x : Float32} (y : Float32) (h : x.isFinite = false) :
    (x / y).isFinite = false := by
  by_contra hdiv
  have hquotient : (UnpackedFloat.div Format.binary32 x.toModel.unpack y.toModel.unpack).isFinite =
      true := finite_of_pack (Bool.eq_true_of_not_eq_false hdiv)
  change x.toModel.unpack.isFinite = false at h
  generalize x.toModel.unpack = u at h hquotient
  cases u with
  | finite s m e hm => cases h
  | zero s => cases h
  | notANumber => cases y.toModel.unpack <;> cases hquotient
  | infinity s => cases hv : y.toModel.unpack <;> rw [hv] at hquotient <;> cases hquotient

theorem unpackSign_packComponents {spec : Format} (s : Sign) (e : BitVec spec.exponentBits)
    (m : BitVec spec.mantissaBitsWithoutImplicit) :
    unpackSign (packComponents spec s e m) = s.toBitVec := by
  ext i hi
  have hplace : spec.mantissaBitsWithoutImplicit + spec.exponentBits + i -
      spec.mantissaBitsWithoutImplicit - spec.exponentBits = i := by
    omega
  simp only [unpackSign, packComponents, BitVec.getElem_cast, BitVec.extractLsb,
    BitVec.getElem_extractLsb', BitVec.getLsbD_append]
  rw [if_neg (by omega), if_neg (by omega), hplace, BitVec.getLsbD_eq_getElem hi]

/-- More than zero; neither a zero nor a NaN is. -/
def Positive : UnpackedFloat → Prop
  | .infinity .positive => True
  | .finite .positive _ _ _ => True
  | _ => False

theorem not_positive_packComponents (e : BitVec Format.binary32.exponentBits)
    (m : BitVec Format.binary32.mantissaBitsWithoutImplicit) :
    ¬Positive (UnpackedFloat.unpack Format.binary32
      (packComponents Format.binary32 .negative e m)) := by
  rw [UnpackedFloat.unpack, unpackSign_packComponents]
  have hsign : Sign.ofBitVec Sign.negative.toBitVec = .negative := rfl
  simp only [hsign]
  split
  · split <;> exact id
  · split
    · split <;> exact id
    · exact id

theorem not_positive_pack {u : UnpackedFloat} (h : ¬Positive u) :
    ¬Positive (UnpackedFloat.unpack Format.binary32 (UnpackedFloat.pack Format.binary32 u)) := by
  rcases u with (_ | _) | _ | (_ | _) | ⟨_ | _, m, e, hm⟩
  case infinity.positive => exact absurd trivial h
  case finite.positive => exact absurd trivial h
  case notANumber => exact id
  case zero.positive => exact id
  case infinity.negative => exact not_positive_packComponents _ _
  case zero.negative => exact not_positive_packComponents _ _
  case finite.negative =>
    rw [UnpackedFloat.pack]
    split
    · exact not_positive_packComponents _ _
    · split
      · exact not_positive_packComponents _ _
      · exact not_positive_packComponents _ _

theorem not_positive_round (m : Nat) (e : Int) (a : Accuracy) :
    ¬Positive (roundWithAccuracy Format.binary32 .negative m e a) := by
  rw [roundWithAccuracy]
  simp only
  split
  · exact id
  · exact id

/-- A quotient of a negative number by a positive one is not positive. -/
theorem not_positive_div {x y : Float32} (hx : x < 0.0) (hf : x.isFinite = true)
    (hy : (0.0 : Float32) < y) (hfy : y.isFinite = true) :
    ¬Positive (x / y).toModel.unpack := by
  have hz : (0.0 : Float32).toModel.unpack = .zero .positive := by rfl
  have hneg : UnpackedFloat.lt x.toModel.unpack (0.0 : Float32).toModel.unpack = true :=
    of_decide_eq_true hx
  have hpos : UnpackedFloat.lt (0.0 : Float32).toModel.unpack y.toModel.unpack = true :=
    of_decide_eq_true hy
  rw [hz] at hneg hpos
  change x.toModel.unpack.isFinite = true at hf
  change y.toModel.unpack.isFinite = true at hfy
  rw [div_eq]
  apply not_positive_pack
  generalize x.toModel.unpack = u at hneg hf
  generalize y.toModel.unpack = w at hpos hfy
  rcases u with _ | _ | _ | ⟨_ | _, m, e, hm⟩
  case finite.negative =>
    rcases w with _ | _ | _ | ⟨_ | _, m', e', hm'⟩
    case finite.positive => exact not_positive_round _ _ _
    case finite.negative => cases hpos
    case zero => cases hpos
    case notANumber => cases hfy
    case infinity => cases hfy
  case finite.positive => cases hneg
  case zero => cases hneg
  case notANumber => cases hf
  case infinity => cases hf

/-- What is not positive counts as zero where negative numbers do. -/
theorem max_zero {x : Float32} (h : ¬Positive x.toModel.unpack) :
    (max x 0.0 == 0.0) = true := by
  have hz : (0.0 : Float32).toModel.unpack = .zero .positive := by rfl
  have hzero : ((0.0 : Float32) == 0.0) = true := by decide
  rw [max]
  split
  · exact hzero
  · next hnan =>
    split
    · exact hzero
    · next hneg =>
      have hneg' : ¬UnpackedFloat.lt x.toModel.unpack (0.0 : Float32).toModel.unpack = true :=
        fun hlt => hneg (decide_eq_true hlt)
      rw [hz] at hneg'
      change ¬x.toModel.unpack.isNaN = true at hnan
      cases hu : x.toModel.unpack with
      | zero s => exact zero_of_unpack hu
      | notANumber =>
        rw [hu] at hnan
        exact absurd rfl hnan
      | infinity s =>
        rw [hu] at h hneg'
        cases s with
        | positive => exact absurd trivial h
        | negative => exact absurd rfl hneg'
      | finite s m e hm =>
        rw [hu] at h hneg'
        cases s with
        | positive => exact absurd trivial h
        | negative => exact absurd rfl hneg'

end Single
end Patchbay
