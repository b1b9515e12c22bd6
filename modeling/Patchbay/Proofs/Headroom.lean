import Mathlib
import Patchbay.Proofs.Spoiling

/-!
# Products below a bound

A product in single precision is rounded, but a number of the format that the exact product stays
below is not passed by rounding. So a share of less than a half, as long as it is not too small to
have all of its bits, comes out below the half.
-/

set_option autoImplicit false

namespace Patchbay

open Float.Model Float.Model.UnpackedFloat

namespace Rounding

open Single (rank)

theorem round_cases (s : Sign) (m : Nat) (e : Int) (a : Accuracy) :
    roundWithAccuracy Format.binary32 s m e a = .zero s ∨
      ∃ m' e' hm, roundWithAccuracy Format.binary32 s m e a = .finite s m' e' hm := by
  rw [roundWithAccuracy]
  simp only
  split
  · exact .inl rfl
  · next hpos => exact .inr ⟨_, _, Nat.pos_of_ne_zero hpos, rfl⟩

/-- What is rounded has a place in the format, if there were bits enough. -/
theorem canonical_round {m : Nat} (hm : 2 ^ 23 ≤ m) (s : Sign) (e : Int) (a : Accuracy) :
    Canonical (roundWithAccuracy Format.binary32 s m e a) := by
  obtain ⟨r, m', e₁, e', hround, he₁, hlow, hhigh, he', hm'⟩ :=
    round_spec targetExponent_single s m e a
  have hlog : 23 ≤ m.log2 := (Nat.le_log2 (by omega)).2 hm
  rw [hround]
  split
  · trivial
  · next hpos =>
    simp only [totalExponent] at he₁ he'
    refine ⟨(Nat.log2_lt hpos).1 (by omega), by omega, ?_⟩
    by_cases hleast : e' = -149
    · exact .inr hleast
    · exact .inl ((Nat.le_log2 hpos).1 (by omega))

/-- Rounding does not pass a number of the format. -/
theorem round_le {m k : Nat} {e i : Int} {hk : 0 < k} (h : Canonical (.finite .positive k i hk))
    (hle : e ≤ i) (hlt : m < k * 2 ^ (i - e).toNat) (a : Accuracy) :
    rank (roundWithAccuracy Format.binary32 .positive m e a) ≤ rank (.finite .positive k i hk) := by
  obtain ⟨r, m', e₁, e', hround, he₁, -, hr, he', hm'⟩ :=
    round_parts targetExponent_single .positive m e a
  obtain ⟨hhigh, hleast, -⟩ := h
  have hbits {n j : Nat} (hn : n ≤ k * 2 ^ j) : n.log2 < 24 + j := by
    rcases Nat.eq_zero_or_pos n with rfl | hpos
    · exact Nat.lt_add_right j (by decide)
    · rw [Nat.log2_lt hpos.ne', pow_add]
      exact hn.trans_lt (Nat.mul_lt_mul_of_pos_right hhigh (Nat.two_pow_pos j))
  simp only [totalExponent] at he₁ he'
  have hlog := hbits hlt.le
  have hfirst : e₁ ≤ i := by omega
  have hcut : m / 2 ^ (e₁ - e).toNat < k * 2 ^ (i - e₁).toNat := by
    rw [Nat.div_lt_iff_lt_mul (Nat.two_pow_pos _), mul_assoc, ← pow_add,
      show (i - e₁).toNat + (e₁ - e).toNat = (i - e).toNat by omega]
    exact hlt
  have hraised : r ≤ k * 2 ^ (i - e₁).toNat := by omega
  have hlog' := hbits hraised
  have hlast : e' ≤ i := by omega
  rw [hround]
  split
  · simp [rank, Prod.Lex.toLex_le_toLex]
  · simp only [rank, Prod.Lex.toLex_le_toLex, lt_self_iff_false, true_and, false_or]
    rcases hlast.lt_or_eq with hless | rfl
    · exact .inl hless
    · refine .inr ⟨rfl, ?_⟩
      rw [hm', Nat.cast_le]
      exact Nat.div_le_of_le_mul (by rwa [mul_comm] at hraised)

end Rounding

namespace Single

open Rounding

variable {x y : Float32} {m c k : Nat} {e d i : Int} {hm : 0 < m} {hc : 0 < c} {hk : 0 < k}

theorem place_mul_le (hx : x.toModel.unpack = .finite .positive m e hm)
    (hy : y.toModel.unpack = .finite .positive c d hc) (hfull : 2 ^ 23 ≤ m * c)
    (h : Canonical (.finite .positive k i hk)) (most : i ≤ 104) (hle : e + d ≤ i)
    (hlt : m * c < k * 2 ^ (i - (e + d)).toNat) : place (x * y) ≤ rank (.finite .positive k i hk) := by
  have hround := round_le h hle hlt .exact
  have hcanonical := canonical_round hfull .positive (e + d) .exact
  rw [mul_eq, hx, hy]
  change rank (UnpackedFloat.unpack Format.binary32 (UnpackedFloat.pack Format.binary32
    (roundWithAccuracy Format.binary32 .positive (m * c) (e + d) .exact))) ≤ _
  rcases round_cases .positive (m * c) (e + d) .exact with hzero | ⟨m', e', hm', hfinite⟩
  · rw [hzero] at hround ⊢
    exact hround
  · rw [hfinite] at hround hcanonical ⊢
    have hbelow : e' ≤ i := by
      simp only [rank, Prod.Lex.toLex_le_toLex] at hround
      omega
    rw [hcanonical.unpack_pack (hbelow.trans most)]
    exact hround

/-- A half is exact. -/
theorem unpack_half (hx : x.toModel.unpack = .finite .positive m e hm)
    (h : Canonical (.finite .positive m (e - 1) hm)) (most : e ≤ 105) :
    (x * 0.5).toModel.unpack = .finite .positive m (e - 1) hm := by
  have hhalf : (0.5 : Float32).toModel.unpack = .finite .positive 8388608 (-24) (by decide) := by rfl
  have hround : roundWithAccuracy Format.binary32 .positive (m * 8388608) (e + -24) .exact =
      .finite .positive m (e - 1) hm := by
    refine h.round (by omega) ?_
    rw [show (e - 1 - (e + -24)).toNat = 23 by omega]
    rfl
  rw [mul_eq, hx, hhalf]
  change UnpackedFloat.unpack Format.binary32 (UnpackedFloat.pack Format.binary32
    (roundWithAccuracy Format.binary32 .positive (m * 8388608) (e + -24) .exact)) = _
  rw [hround, h.unpack_pack (by omega)]

theorem exponent_le (hx : x.toModel.unpack = .finite .positive m e hm) : e ≤ 104 := by
  have hpacked := pack_unpack x
  rw [hx] at hpacked
  by_contra hhigh
  have hinfinite : UnpackedFloat.pack Format.binary32 (.finite .positive m e hm) =
      packedInfinity Format.binary32 .positive := by
    rw [UnpackedFloat.pack]
    simp only [biased_single]
    rw [if_pos (show 2 ^ 8 ≤ (e + 150).toNat + 1 by omega)]
  rw [← hpacked] at hx
  change UnpackedFloat.unpack Format.binary32
    (UnpackedFloat.pack Format.binary32 (.finite .positive m e hm)) = _ at hx
  rw [hinfinite] at hx
  cases hx

theorem positive_of_le {low : Nat} {j : Int} {hl : 0 < low} {u : UnpackedFloat}
    (h : rank (.finite .positive low j hl) ≤ rank u) : Positive u := by
  rcases u with (_ | _) | _ | _ | ⟨_ | _, m, e, hm⟩
  case infinity.positive => trivial
  case finite.positive => trivial
  all_goals simp [rank, Prod.Lex.toLex_le_toLex] at h

theorem unpack_share :
    (0.49 : Float32).toModel.unpack = .finite .positive 16441672 (-25) (by decide) := by rfl

/-- From a number below 2 there would not come 20. -/
theorem exponent_of_share (hx : x.toModel.unpack = .finite .positive m e hm) (hhigh : m < 2 ^ 24)
    (h : place 20.0 ≤ place (x * 0.49)) : -23 ≤ e := by
  have htwenty : place 20.0 = rank (.finite .positive 10485760 (-19) (by decide)) := by rfl
  rw [htwenty] at h
  by_contra hsmall
  have htwo : Canonical (.finite .positive (2 ^ 23) (-22) (by decide)) :=
    ⟨by decide, by decide, .inl le_rfl⟩
  have hless : m * 16441672 < 2 ^ 23 * 2 ^ (-22 - (e + -25)).toNat :=
    calc m * 16441672 < 2 ^ 24 * 2 ^ 24 := by omega
      _ ≤ 2 ^ 23 * 2 ^ 27 := by decide
      _ ≤ 2 ^ 23 * 2 ^ (-22 - (e + -25)).toNat :=
        Nat.mul_le_mul_left _ (Nat.pow_le_pow_right (by decide) (by omega))
  have hbelow := place_mul_le hx unpack_share (by omega) htwo (by decide) (by omega) hless
  exact absurd (h.trans hbelow) (by simp [rank, Prod.Lex.toLex_le_toLex])

/-- The number of the format before the half bounds the share. -/
theorem share_lt_half (hx : x.toModel.unpack = .finite .positive m e hm) (hbits : 2 ^ 23 ≤ m)
    (hhigh : m < 2 ^ 24) (hlow : -23 ≤ e) :
    place (x * 0.49) < rank (.finite .positive m (e - 1) hm) := by
  have hmost := exponent_le hx
  rcases hbits.eq_or_lt with rfl | hmore
  · have hbefore : Canonical (.finite .positive (2 ^ 24 - 1) (e - 2) (by decide)) :=
      ⟨by decide, by omega, .inl (by decide)⟩
    have hbelow := place_mul_le hx unpack_share (by decide) hbefore (by omega) (by omega)
      (by rw [show (e - 2 - (e + -25)).toNat = 23 by omega]; decide)
    refine hbelow.trans_lt ?_
    simp [rank, Prod.Lex.toLex_lt_toLex]
  · have hbefore : Canonical (.finite .positive (m - 1) (e - 1) (by omega)) :=
      ⟨by omega, by omega, .inl (by omega)⟩
    have hbelow := place_mul_le hx unpack_share (by omega) hbefore (by omega) (by omega)
      (by rw [show (e - 1 - (e + -25)).toNat = 24 by omega]; omega)
    refine hbelow.trans_lt ?_
    simp [rank, Prod.Lex.toLex_lt_toLex]
    omega

/-- Of a number that is not too small 0.49 is less than a half. -/
theorem mul_lt_half (hf : x.isFinite = true) (h : 20.0 ≤ x * 0.49) : x * 0.49 < x * 0.5 := by
  obtain ⟨-, hnumber, hplace⟩ := (le_iff_place _ _).1 h
  have hpositive : Positive (x * 0.49).toModel.unpack :=
    positive_of_le (show rank (.finite .positive 10485760 (-19) (by decide)) ≤ _ from hplace)
  change x.toModel.unpack.isFinite = true at hf
  rcases hx : x.toModel.unpack with s | - | s | ⟨_ | _, m, e, hm⟩
  case infinity =>
    rw [hx] at hf
    cases hf
  case notANumber =>
    rw [hx] at hf
    cases hf
  case zero =>
    rw [mul_eq, hx, unpack_share] at hpositive
    exact absurd hpositive (not_positive_pack id)
  case finite.negative =>
    rw [mul_eq, hx, unpack_share] at hpositive
    exact absurd hpositive (not_positive_pack (not_positive_round _ _ _))
  case finite.positive =>
    have hcanonical := canonical x
    rw [hx] at hcanonical
    obtain ⟨hhigh, hleast, hfirst⟩ := hcanonical
    have hlow := exponent_of_share hx hhigh hplace
    have hbits : 2 ^ 23 ≤ m := by omega
    have hmost := exponent_le hx
    have hhalf := unpack_half hx ⟨hhigh, by omega, .inl hbits⟩ (by omega)
    have hnumber' : (x * 0.5).isNaN = false := by
      change (x * 0.5).toModel.unpack.isNaN = false
      rw [hhalf]
      rfl
    refine (lt_iff_place _ _).2 ⟨hnumber, hnumber', ?_⟩
    rw [show place (x * 0.5) = rank (x * 0.5).toModel.unpack from rfl, hhalf]
    exact share_lt_half hx hbits hhigh hlow

end Single

end Patchbay
