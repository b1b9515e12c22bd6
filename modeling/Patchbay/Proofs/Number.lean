import Mathlib
import Patchbay.Number.Single

/-!
# Numbers up to the sign of zero

Two samples are the same number if they compare as equal or are both NaN. A zero that is added
changes nothing but the sign of a zero, and a factor of zero silences whatever it meets. Both
are facts about the words of the format; no other law of the arithmetic is used.
-/

set_option autoImplicit false

namespace Patchbay

open Float.Model

namespace Single

/-- The sign of a zero does not count, and a NaN is the same number as a NaN. -/
def Same (x y : Float32) : Prop := x == y ∨ x.isNaN ∧ y.isNaN

theorem same_iff (x y : Float32) : Same x y ↔ x = y ∨ x == 0.0 ∧ y == 0.0 := by
  have h0 : (0.0 : Float32) = 0 := by decide
  have hp : (0 : Float32) ≠ Float32.nan := by decide
  have hn : (-0 : Float32) ≠ Float32.nan := by decide
  simp only [Same, Float32.beq_iff_ne_nan_and_eq, Float32.isNaN_eq_decide_eq_nan,
    decide_eq_true_eq, h0]
  constructor
  · rintro (⟨-, -, rfl | ⟨rfl, rfl⟩ | ⟨rfl, rfl⟩⟩ | ⟨rfl, rfl⟩)
    · exact .inl rfl
    · exact .inr (by simp [hp, hn])
    · exact .inr (by simp [hp, hn])
    · exact .inl rfl
  · rintro (rfl | ⟨⟨hx, -, hx'⟩, hy, -, hy'⟩)
    · by_cases h : x = Float32.nan
      · exact .inr ⟨h, h⟩
      · exact .inl ⟨h, h, .inl rfl⟩
    · refine .inl ⟨hx, hy, ?_⟩
      rcases hx' with rfl | ⟨rfl, -⟩ | ⟨rfl, -⟩ <;> rcases hy' with rfl | ⟨rfl, -⟩ | ⟨rfl, -⟩ <;>
        simp

theorem same_refl (x : Float32) : Same x x := (same_iff x x).2 (.inl rfl)

theorem same_symm {x y : Float32} (h : Same x y) : Same y x := by
  rw [same_iff] at h ⊢
  rcases h with rfl | ⟨hx, hy⟩
  · exact .inl rfl
  · exact .inr ⟨hy, hx⟩

theorem same_trans {x y z : Float32} (h : Same x y) (k : Same y z) : Same x z := by
  rw [same_iff] at h k ⊢
  rcases h with rfl | ⟨hx, hy⟩
  · exact k
  · rcases k with rfl | ⟨-, hz⟩
    · exact .inr ⟨hx, hy⟩
    · exact .inr ⟨hx, hz⟩

theorem pack_unpack (x : Float32) : Float32.ofModel (.pack x.toModel.unpack) = x :=
  Float32.ofBits_toBits x

theorem same_add_zero (x : Float32) : Same (x + 0.0) x := by
  have hz : (0.0 : Float32).toModel.unpack = .zero .positive := by rfl
  have hs : x + 0.0 = .ofModel
      (.pack (UnpackedFloat.add Format.binary32 x.toModel.unpack (.zero .positive))) := by
    rw [← hz]
    rfl
  rw [same_iff, hs]
  have hx := pack_unpack x
  cases hu : x.toModel.unpack with
  | notANumber => rw [hu] at hx; exact .inl hx
  | infinity s => rw [hu] at hx; exact .inl hx
  | finite s m e hm => rw [hu] at hx; exact .inl hx
  | zero s =>
    rw [hu] at hx
    rw [← hx]
    cases s
    · exact .inr (by decide)
    · exact .inl rfl

end Single

theorem mulAnnihilating_zero (y : Float32) : mulAnnihilating 0.0 y = 0.0 := by
  have h : ((0.0 : Float32) == 0.0) = true := by decide
  simp [mulAnnihilating, h]

end Patchbay
