import Mathlib
import Patchbay.Json.Reader

/-!
# Doubles that stay finite

A number that is read is a 64-bit significand, divided by powers of ten where its exponent is
negative. How large a double is, is told by the place of its greatest bit: rounding raises it by one
at most and no division by a power of ten raises it much further, so nothing on the way comes near
infinity.
-/

set_option autoImplicit false

namespace Patchbay

open Float.Model Float.Model.UnpackedFloat

namespace Rounding

/-! ## Rounding -/

theorem shiftRight_mantissa (em : ExtendedMantissa) (n : Nat) :
    (em >>> n).mantissa = em.mantissa / 2 ^ n := by
  show (n.repeat ExtendedMantissa.shiftRightOne em).mantissa = _
  induction n with
  | zero => simp [Nat.repeat]
  | succ n ih =>
    rw [Nat.repeat, ExtendedMantissa.shiftRightOne, ih, Nat.div_div_eq_div_mul, pow_succ]

theorem mantissa_ofAccuracy (m : Nat) (a : Accuracy) :
    (ExtendedMantissa.ofMantissaAndAccuracy m a).mantissa = m := by
  rw [ExtendedMantissa.ofMantissaAndAccuracy.eq_def]
  split <;> rfl

theorem roundedMantissa_bounds (em : ExtendedMantissa) :
    em.mantissa ≤ em.roundedMantissa ∧ em.roundedMantissa ≤ em.mantissa + 1 := by
  rw [ExtendedMantissa.roundedMantissa, Accuracy.roundToNearestEven.eq_def]
  split <;> omega

theorem log2_div_pow (m j : Nat) : (m / 2 ^ j).log2 = m.log2 - j := by
  rw [Nat.log2_eq_log_two, Nat.log2_eq_log_two, Nat.log_div_base_pow]

theorem targetExponent_eq (t : Int) : Format.binary64.targetExponent t = max (t - 53) (-1074) := by
  rw [Format.targetExponent]
  rfl

section

variable {spec : Format} {bits least : Int}

/-- A mantissa is cut down to the bits of the format, or to what the least exponent leaves of it. -/
theorem shift_spec (hspec : ∀ t, spec.targetExponent t = max (t - bits) least) (m : Nat) (e : Int)
    (a : Accuracy) :
    (shiftToTargetExponent spec m e a).2 = max e (max (totalExponent m e - bits) least) ∧
      (shiftToTargetExponent spec m e a).1.mantissa =
        m / 2 ^ (max e (max (totalExponent m e - bits) least) - e).toNat := by
  rw [shiftToTargetExponent, shiftToExponent, hspec]
  simp only [shiftRight_mantissa, mantissa_ofAccuracy]
  constructor
  · omega
  · congr 2
    omega

theorem log2_succ_le (n : Nat) : (n + 1).log2 ≤ n.log2 + 1 := by
  have h : n + 1 < 2 ^ (n.log2 + 2) := by
    have := Nat.lt_log2_self (n := n)
    rw [pow_succ]
    omega
  exact Nat.lt_succ_iff.1 ((Nat.log2_lt (Nat.succ_ne_zero n)).2 h)

theorem log2_le_of_le {a b : Nat} (h : a ≤ b) : a.log2 ≤ b.log2 := by
  rw [Nat.log2_eq_log_two, Nat.log2_eq_log_two]
  exact Nat.log_mono_right h

/-- Rounding cuts a mantissa down, which may raise it by one, and cuts it down once more. -/
theorem round_parts (hspec : ∀ t, spec.targetExponent t = max (t - bits) least) (s : Sign) (m : Nat)
    (e : Int) (a : Accuracy) :
    ∃ (r m' : Nat) (e₁ e' : Int),
      roundWithAccuracy spec s m e a =
        (if h : m' = 0 then .zero s else .finite s m' e' (Nat.pos_of_ne_zero h)) ∧
      e₁ = max e (max (totalExponent m e - bits) least) ∧
      m / 2 ^ (e₁ - e).toNat ≤ r ∧ r ≤ m / 2 ^ (e₁ - e).toNat + 1 ∧
      e' = max e₁ (max (totalExponent r e₁ - bits) least) ∧ m' = r / 2 ^ (e' - e₁).toNat := by
  obtain ⟨he₁, hm₁⟩ := shift_spec hspec m e a
  rw [roundWithAccuracy]
  generalize shiftToTargetExponent spec m e a = first at *
  obtain ⟨em, e₁⟩ := first
  obtain ⟨he₂, hm₂⟩ := shift_spec hspec em.roundedMantissa e₁ .exact
  simp only at he₁ hm₁ ⊢
  generalize shiftToTargetExponent spec em.roundedMantissa e₁ .exact = second at *
  obtain ⟨em', e₂⟩ := second
  simp only at he₂ hm₂ ⊢
  obtain ⟨hlow, hhigh⟩ := roundedMantissa_bounds em
  rw [← he₁] at hm₁
  rw [← he₂] at hm₂
  exact ⟨em.roundedMantissa, em'.mantissa, e₁, e₂, rfl, he₁, hm₁ ▸ hlow, hm₁ ▸ hhigh, he₂, hm₂⟩

/-- The same by the greatest bits. -/
theorem round_spec (hspec : ∀ t, spec.targetExponent t = max (t - bits) least) (s : Sign) (m : Nat)
    (e : Int) (a : Accuracy) :
    ∃ (r m' : Nat) (e₁ e' : Int),
      roundWithAccuracy spec s m e a =
        (if h : m' = 0 then .zero s else .finite s m' e' (Nat.pos_of_ne_zero h)) ∧
      e₁ = max e (max (totalExponent m e - bits) least) ∧
      m.log2 - (e₁ - e).toNat ≤ r.log2 ∧ r.log2 ≤ m.log2 - (e₁ - e).toNat + 1 ∧
      e' = max e₁ (max (totalExponent r e₁ - bits) least) ∧
      m'.log2 = r.log2 - (e' - e₁).toNat := by
  obtain ⟨r, m', e₁, e', hround, he₁, hlow, hhigh, he', hm'⟩ := round_parts hspec s m e a
  refine ⟨r, m', e₁, e', hround, he₁, ?_, ?_, he', ?_⟩
  · rw [← log2_div_pow]
    exact log2_le_of_le hlow
  · rw [← log2_div_pow]
    exact (log2_le_of_le hhigh).trans (log2_succ_le _)
  · rw [hm', log2_div_pow]

end

/-- The greatest bit of a finite number that is not zero stands below the place `b`. -/
def Below (b : Int) : UnpackedFloat → Prop
  | .zero _ => True
  | .finite _ m e _ => totalExponent m e ≤ b
  | _ => False

theorem below_round {b : Int} (hb : -1000 ≤ b) (s : Sign) {m : Nat} {e : Int} (a : Accuracy)
    (ht : totalExponent m e ≤ b) : Below (b + 1) (roundWithAccuracy Format.binary64 s m e a) := by
  obtain ⟨r, m', e₁, e', hround, he₁, -, hr, he', hm'⟩ := round_spec targetExponent_eq s m e a
  rw [hround]
  split
  · trivial
  · simp only [Below, totalExponent] at *
    omega

/-- A number with all 53 bits that is not less than one, or infinity. -/
def Ample : UnpackedFloat → Prop
  | .finite _ m e _ => m.log2 = 52 ∧ -52 ≤ e
  | .infinity _ => True
  | _ => False

theorem ample_round (s : Sign) {m : Nat} {e : Int} (a : Accuracy) (hm : 52 ≤ m.log2)
    (ht : 1 ≤ totalExponent m e) : Ample (roundWithAccuracy Format.binary64 s m e a) := by
  obtain ⟨r, m', e₁, e', hround, he₁, hlow, hhigh, he', hm'⟩ := round_spec targetExponent_eq s m e a
  simp only [totalExponent] at *
  have hlog : m'.log2 = 52 := by omega
  rw [hround]
  split
  · next hzero =>
    rw [hzero] at hlog
    cases hlog
  · exact ⟨hlog, by omega⟩

/-! ## Division -/

theorem log2_div_le (a b : Nat) (hb : b ≠ 0) : (a / b).log2 ≤ a.log2 - b.log2 := by
  calc (a / b).log2 ≤ (a / 2 ^ b.log2).log2 :=
        log2_le_of_le (Nat.div_le_div_left (Nat.log2_self_le hb) (Nat.two_pow_pos _))
    _ = a.log2 - b.log2 := log2_div_pow a b.log2

theorem log2_shiftLeft (m j : Nat) (hm : m ≠ 0) : (m <<< j).log2 = m.log2 + j := by
  induction j with
  | zero => rfl
  | succ j ih =>
    rw [Nat.shiftLeft_succ, Nat.log2_two_mul (by simp [Nat.shiftLeft_eq, hm]), ih, add_assoc]

theorem divCore_total {b : Int} (hb : -1000 ≤ b) {m₁ m₂ : Nat} {e₁ e₂ : Int} (hm₁ : m₁ ≠ 0)
    (hm₂ : m₂ ≠ 0) (h₁ : totalExponent m₁ e₁ ≤ b) (h₂ : 1 ≤ totalExponent m₂ e₂) :
    totalExponent (divCore Format.binary64 m₁ e₁ m₂ e₂).1
      (divCore Format.binary64 m₁ e₁ m₂ e₂).2.1 ≤ b + 1 := by
  rw [divCore]
  simp only [targetExponent_eq]
  have hmin := min_le_left (e₁ - e₂) (max (totalExponent m₁ e₁ - totalExponent m₂ e₂ - 53) (-1074))
  have hmin' := min_le_right (e₁ - e₂)
    (max (totalExponent m₁ e₁ - totalExponent m₂ e₂ - 53) (-1074))
  generalize min (e₁ - e₂) (max (totalExponent m₁ e₁ - totalExponent m₂ e₂ - 53) (-1074)) = e at *
  have hlog := log2_div_le (m₁ <<< (e₁ - e₂ - e).toNat) m₂ hm₂
  rw [log2_shiftLeft _ _ hm₁] at hlog
  simp only [totalExponent] at *
  omega

theorem below_div {b : Int} (hb : -1000 ≤ b) {x y : UnpackedFloat} (hx : Below b x)
    (hy : Ample y) : Below (b + 2) (UnpackedFloat.div Format.binary64 x y) := by
  cases y with
  | finite s₂ m₂ e₂ h₂ =>
    cases x with
    | finite s₁ m₁ e₁ h₁ =>
      have ht₂ : 1 ≤ totalExponent m₂ e₂ := by
        rw [totalExponent, hy.1]
        exact le_trans (by decide) (Int.add_le_add_left hy.2 _)
      have hround := below_round (by omega) (s₁ / s₂) (divCore Format.binary64 m₁ e₁ m₂ e₂).2.2
        (divCore_total hb (by omega) (by omega) hx ht₂)
      rwa [add_assoc] at hround
    | zero s => trivial
    | infinity s => cases hx
    | notANumber => cases hx
  | infinity s =>
    cases x with
    | finite s₁ m₁ e₁ h₁ => trivial
    | zero s => trivial
    | infinity s => cases hx
    | notANumber => cases hx
  | zero s => cases hy
  | notANumber => cases hy

theorem below_mul_zero {b : Int} {x : UnpackedFloat} (s : Sign) (h : Below b x) :
    Below b (UnpackedFloat.mul Format.binary64 x (.zero s)) := by
  cases x with
  | finite s m e hm => trivial
  | zero s => trivial
  | infinity s => cases h
  | notANumber => cases h

/-! ## Words -/

theorem log2_append (low : BitVec 52) : (1#1 ++ low).toNat.log2 = 52 := by
  have hlow := low.isLt
  rw [BitVec.toNat_append, ← Nat.shiftLeft_add_eq_or_of_lt hlow, Nat.log2_eq_iff]
  · simp [Nat.shiftLeft_eq]
    omega
  · simp [Nat.shiftLeft_eq]

/-- A word that does not stand for infinity or a NaN, by its exponent field. -/
theorem unpack_cases {word : BitVec Format.binary64.numBits} (h : unpackExponent word ≠ -1#_) :
    (unpackExponent word = 0#_ ∧ ∃ s, UnpackedFloat.unpack Format.binary64 word = .zero s) ∨
    ∃ s m e hm, UnpackedFloat.unpack Format.binary64 word = .finite s m e hm ∧
      ((unpackExponent word = 0#_ ∧ m.log2 < 52 ∧ e = -1074) ∨
        (unpackExponent word ≠ 0#_ ∧ m.log2 = 52 ∧
          e = ((unpackExponent word).toNat : Int) - 1075)) := by
  rw [UnpackedFloat.unpack]
  simp only [if_neg h]
  split
  · next hzero =>
    split
    · exact .inl ⟨hzero, _, rfl⟩
    · next hlow =>
      have hpos : 0 < (unpackMantissa word).toNat := by
        rwa [BitVec.toNat_pos, BitVec.pos_iff_ne_zero]
      refine .inr ⟨_, _, _, hpos, rfl, .inl ⟨hzero, ?_, ?_⟩⟩
      · exact (Nat.log2_lt hpos.ne').2 (unpackMantissa word).isLt
      · rw [hzero]
        rfl
  · next hzero =>
    have hpos : 0 < (1#1 ++ unpackMantissa word).toNat := by
      refine Nat.pos_of_ne_zero fun hz => ?_
      have hlog := log2_append (unpackMantissa word)
      rw [hz] at hlog
      cases hlog
    exact .inr ⟨_, _, _, hpos, rfl, .inr ⟨hzero, log2_append _, rfl⟩⟩

theorem field_toNat {n : Nat} (h : n < 2047) :
    (BitVec.ofNat 11 n).toNat = n ∧ BitVec.ofNat 11 n ≠ -1#11 := by
  have hn : (BitVec.ofNat 11 n).toNat = n := by
    rw [BitVec.toNat_ofNat, Nat.mod_eq_of_lt (by omega)]
  refine ⟨hn, fun heq => ?_⟩
  rw [heq] at hn
  exact absurd hn (by simp; omega)

/-- A number that a word has room for. -/
def Fits : UnpackedFloat → Prop
  | .zero _ => True
  | .finite _ _ e _ => e ≤ 971
  | _ => False

theorem biased (e : Int) : e + Format.binary64.exponentBias + (52 : Nat) = e + 1075 := by
  rw [add_assoc]
  rfl

/-- The word of a number that fits, by its exponent field. -/
theorem pack_exponent {s : Sign} {m : Nat} {e : Int} (hm : 0 < m) (he : e ≤ 971) :
    unpackExponent (UnpackedFloat.pack Format.binary64 (.finite s m e hm)) =
      if m.log2 = 52 then BitVec.ofNat 11 (e + 1075).toNat else 0#_ := by
  rw [UnpackedFloat.pack]
  simp only [biased]
  rw [if_neg (by simp; omega)]
  split
  · next hlog =>
    rw [unpackExponent_packComponents, if_pos (by simpa [Format.mantissaBits] using hlog)]
  · next hlog =>
    rw [unpackExponent_packComponents, if_neg (by simpa [Format.mantissaBits] using hlog)]

theorem pack_overflow {s : Sign} {m : Nat} {e : Int} (hm : 0 < m) (he : 971 < e) :
    UnpackedFloat.pack Format.binary64 (.finite s m e hm) = packedInfinity Format.binary64 s := by
  rw [UnpackedFloat.pack]
  simp only [biased]
  exact if_pos (by simp; omega)

theorem Fits.exponent {u : UnpackedFloat} (h : Fits u) :
    unpackExponent (UnpackedFloat.pack Format.binary64 u) ≠ -1#11 := by
  cases u with
  | zero s =>
    rw [UnpackedFloat.pack, packedZero, unpackExponent_packComponents]
    decide
  | finite s m e hm =>
    rw [Fits] at h
    rw [pack_exponent hm h]
    split
    · exact (field_toNat (by omega)).2
    · decide
  | infinity s => cases h
  | notANumber => cases h

theorem Below.fits {b : Int} (hb : b ≤ 900) {u : UnpackedFloat} (h : Below b u) : Fits u := by
  cases u with
  | finite s m e hm =>
    simp only [Below, totalExponent, Fits] at *
    omega
  | zero s => trivial
  | infinity s => cases h
  | notANumber => cases h

theorem Below.pack {b : Int} (hlow : -1000 ≤ b) (hb : b ≤ 900) {u : UnpackedFloat}
    (h : Below b u) : Below b (Float.Model.pack u).unpack := by
  have hexp : unpackExponent (UnpackedFloat.pack Format.binary64 u) ≠ -1#11 :=
    Fits.exponent (h.fits hb)
  show Below b (UnpackedFloat.unpack Format.binary64 (UnpackedFloat.pack Format.binary64 u))
  rcases unpack_cases hexp with ⟨-, s, hu⟩ | ⟨s, m, e, hm, hu, ⟨-, hlog, he⟩ | ⟨hne, hlog, he⟩⟩
  · rw [hu]
    trivial
  · rw [hu]
    simp only [Below, totalExponent]
    omega
  · rw [hu]
    cases u with
    | zero s' =>
      rw [UnpackedFloat.pack, packedZero, unpackExponent_packComponents] at hne
      exact absurd rfl hne
    | finite s' m' e' hm' =>
      have hfit := h.fits hb
      rw [pack_exponent hm' hfit] at hne he
      rw [Fits] at hfit
      split at he
      · next hlog' =>
        rw [if_pos hlog'] at hne
        rw [(field_toNat (by omega)).1] at he
        have hne' : (e' + 1075).toNat ≠ 0 := fun hz => hne (by rw [hz])
        simp only [Below, totalExponent] at h ⊢
        omega
      · next hlog' =>
        rw [if_neg hlog'] at hne
        exact absurd rfl hne
    | infinity s => cases h
    | notANumber => cases h

theorem Ample.pack {u : UnpackedFloat} (h : Ample u) : Ample (Float.Model.pack u).unpack := by
  have hinf (s : Sign) : Ample (UnpackedFloat.unpack Format.binary64
      (packedInfinity Format.binary64 s)) := by
    cases s <;> exact trivial
  show Ample (UnpackedFloat.unpack Format.binary64 (UnpackedFloat.pack Format.binary64 u))
  cases u with
  | infinity s => exact hinf s
  | finite s m e hm =>
    obtain ⟨hlog, he⟩ := h
    by_cases hfit : e ≤ 971
    · have hexp := pack_exponent (s := s) hm hfit
      rw [if_pos hlog] at hexp
      obtain ⟨hn, hne⟩ := field_toNat (n := (e + 1075).toNat) (by omega)
      have hzero : BitVec.ofNat 11 (e + 1075).toNat ≠ 0#11 := by
        intro hz
        rw [hz] at hn
        simp at hn
        omega
      rcases unpack_cases (hexp ▸ hne) with
        ⟨hz, -⟩ | ⟨s', m', e', hm', hu, ⟨hz, -, -⟩ | ⟨-, hlog', he'⟩⟩
      · exact absurd (hexp ▸ hz) hzero
      · exact absurd (hexp ▸ hz) hzero
      · rw [hu]
        refine ⟨hlog', ?_⟩
        rw [he', hexp, hn]
        omega
    · rw [pack_overflow hm (by omega)]
      exact hinf s
  | zero s => cases h
  | notANumber => cases h

/-! ## Doubles -/

theorem isFinite_of_below {b : Int} {x : Float} (h : Below b x.toModel.unpack) :
    x.isFinite = true := by
  show x.toModel.unpack.isFinite = true
  generalize x.toModel.unpack = u at h
  cases u with
  | finite s m e hm => rfl
  | zero s => rfl
  | infinity s => cases h
  | notANumber => cases h

theorem isFinite_pack {u : UnpackedFloat} (h : Fits u) :
    (Float.Model.pack u).unpack.isFinite = true := by
  show (UnpackedFloat.unpack Format.binary64 (UnpackedFloat.pack Format.binary64 u)).isFinite = true
  rcases unpack_cases h.exponent with ⟨-, s, hu⟩ | ⟨s, m, e, hm, hu, -⟩
  · rw [hu]
    rfl
  · rw [hu]
    rfl

theorem fits_of_exponent {word : BitVec Format.binary64.numBits}
    (h : unpackExponent word ≠ -1#_) : Fits (UnpackedFloat.unpack Format.binary64 word) := by
  rcases unpack_cases h with ⟨-, s, hu⟩ | ⟨s, m, e, hm, hu, ⟨-, -, he⟩ | ⟨-, -, he⟩⟩
  · rw [hu]
    trivial
  · rw [hu, Fits]
    omega
  · rw [hu, Fits]
    have hlt : (unpackExponent word).toNat < 2048 := (unpackExponent word).isLt
    have hne : (unpackExponent word).toNat ≠ 2047 := fun heq => h (BitVec.eq_of_toNat_eq heq)
    omega

theorem fits_unpack {word : BitVec Format.binary64.numBits}
    (h : (UnpackedFloat.unpack Format.binary64 word).isFinite = true) :
    Fits (UnpackedFloat.unpack Format.binary64 word) := by
  refine fits_of_exponent fun hexp => ?_
  rw [UnpackedFloat.unpack] at h
  simp only [if_pos hexp] at h
  split at h
  · cases h
  · cases h

theorem isFinite_neg {x : Float} (h : x.isFinite = true) : (-x).isFinite = true := by
  have hfits : Fits x.toModel.unpack := fits_unpack h
  show (Float.Model.pack x.toModel.unpack.neg).unpack.isFinite = true
  refine isFinite_pack ?_
  generalize x.toModel.unpack = u at hfits
  cases u with
  | finite s m e hm => exact hfits
  | zero s => trivial
  | infinity s => cases hfits
  | notANumber => cases hfits

theorem below_ofNat {n : Nat} (h : n < 2 ^ 64) : Below 65 (UnpackedFloat.ofNat Format.binary64 n) := by
  rw [UnpackedFloat.ofNat, UnpackedFloat.ofInt, UnpackedFloat.normalize]
  split
  · next hlt =>
    rw [compare_lt_iff_lt] at hlt
    omega
  · trivial
  · next hgt =>
    rw [compare_gt_iff_gt] at hgt
    rw [UnpackedFloat.round, decreaseExponent]
    simp only [Int.toNat_natCast]
    refine below_round (b := 64) (by decide) _ _ ?_
    rw [totalExponent, log2_shiftLeft _ _ (by omega)]
    have hlog : n.log2 < 64 := (Nat.log2_lt (by omega)).2 h
    omega

theorem below_toFloat (n : UInt64) : Below 65 n.toFloat.toModel.unpack :=
  Below.pack (by decide) (by decide) (below_ofNat n.toNat_lt)

instance (u : UnpackedFloat) : Decidable (Ample u) :=
  match u with
  | .finite _ m e _ => inferInstanceAs (Decidable (m.log2 = 52 ∧ -52 ≤ e))
  | .infinity _ => .isTrue trivial
  | .zero _ => .isFalse id
  | .notANumber => .isFalse id

theorem ample_powerOfTen (k : Nat) : Ample (Json.powerOfTen k).toModel.unpack := by
  by_cases hk : k ≤ 22
  · have htable : ∀ k ≤ 22, Ample (Json.powerOfTen k).toModel.unpack := by decide +kernel
    exact htable k hk
  · rw [Json.powerOfTen, Float.ofScientific, dif_neg (by omega)]
    show Ample (Float.Model.pack (UnpackedFloat.ofScientific Format.binary64 1 k)).unpack
    refine Ample.pack ?_
    rw [UnpackedFloat.ofScientific, dif_neg (by decide)]
    split
    · trivial
    · have hbits : Format.binary64.mantissaBits = 53 := rfl
      have hlog : 53 ≤ ((1 <<< 53) * 10 ^ k).log2 := by
        rw [Nat.le_log2 (by simp)]
        exact Nat.le_mul_of_pos_right _ (Nat.pow_pos (by decide))
      rw [if_neg (by omega), if_pos (by omega), UnpackedFloat.mul, hbits, Int.toNat_natCast]
      refine ample_round _ _ (hlog.trans' (by decide)) ?_
      rw [totalExponent]
      omega

/-- Of a number divided by powers of ten little enough is left at any time. -/
theorem isFinite_scaleDown {b : Int} (hlow : -1000 ≤ b) (fuel : Nat) (hb : b + 2 * fuel ≤ 900)
    {x : Float} (h : Below b x.toModel.unpack) (k : Nat) :
    (Json.scaleDown fuel x k).isFinite = true := by
  induction fuel generalizing b x k with
  | zero =>
    refine isFinite_of_below (Below.pack hlow (by omega) ?_)
    have hzero : (0.0 : Float).toModel.unpack = .zero .positive := rfl
    rw [hzero]
    exact below_mul_zero _ h
  | succ fuel ih =>
    have hdiv (j : Nat) : Below (b + 2) (x / Json.powerOfTen j).toModel.unpack :=
      Below.pack (by omega) (by omega) (below_div hlow h (ample_powerOfTen j))
    rw [Json.scaleDown]
    split
    · exact isFinite_of_below (hdiv k)
    · exact ih (by omega) (by omega) (hdiv 308) (k - 308)

/-! ## Words -/

theorem unpackExponent_toNat (word : BitVec Format.binary64.numBits) :
    (unpackExponent word).toNat = word.toNat / 2 ^ 52 % 2 ^ 11 := by
  rw [unpackExponent, BitVec.toNat_cast, BitVec.extractLsb_toNat, Nat.shiftRight_eq_div_pow]
  rfl

/-- A word whose exponent field is not full. -/
theorem isFinite_ofBits {w : UInt64} (h : w.toNat / 2 ^ 52 % 2 ^ 11 ≠ 2047) :
    (Float.ofBits w).isFinite = true := by
  refine isFinite_pack (fits_of_exponent fun hexp => h ?_)
  have hfield := unpackExponent_toNat w.toBitVec
  rw [hexp] at hfield
  exact hfield.symm

/-- The sign stands in front of the exponent field. -/
theorem isFinite_signed {w : Nat} (h : w < 2047 * 2 ^ 52) (s : Bool) :
    (Float.ofBits (if s then w.toUInt64 ||| 0x8000000000000000 else w.toUInt64)).isFinite =
      true := by
  have hw : w.toUInt64.toNat = w := by
    rw [Nat.toUInt64_eq, UInt64.toNat_ofNat', Nat.mod_eq_of_lt (by omega)]
  apply isFinite_ofBits
  cases s with
  | false =>
    rw [if_neg (by decide), hw]
    omega
  | true =>
    have hsign : w ||| 2 ^ 63 = 2 ^ 63 * 1 + w := by
      rw [Nat.or_comm, Nat.two_pow_add_eq_or_of_lt (by omega), Nat.mul_one]
    have hsigned : (w.toUInt64 ||| 0x8000000000000000).toNat = 2 ^ 63 * 1 + w := by
      rw [UInt64.toNat_or, hw, ← hsign]
      rfl
    rw [if_pos rfl, hsigned]
    omega

end Rounding

theorem BinaryFormat.roundShift_le (n k : Nat) : roundShift n k ≤ n / 2 ^ k + 1 := by
  rw [roundShift, Nat.shiftRight_eq_div_pow]
  split
  · exact le_rfl
  · omega

/-- An integer of 64 bits is far from infinite. -/
theorem BinaryFormat.round_lt {m : Nat} (h : m ≤ 2 ^ 63) : double.round m 0 < 2047 * 2 ^ 52 := by
  rw [round]
  split
  · decide
  · next hm =>
    have hlog : m.log2 < 64 := (Nat.log2_lt hm).2 (by omega)
    have hlt : m < 2 ^ (m.log2 + 1) := Nat.lt_log2_self
    have hunit : max (0 + (m.log2 : Int) - double.fraction) double.least = m.log2 - 52 := by
      simp only [double]
      omega
    rw [hunit]
    refine lt_of_le_of_lt (min_le_left _ _) ?_
    have hhigh : ((m.log2 : Int) - 52 - double.least).toNat <<< double.fraction ≤
        1085 * 2 ^ 52 := by
      simp only [double]
      rw [Nat.shiftLeft_eq]
      exact Nat.mul_le_mul_right _ (by omega)
    have hlow : (if (m.log2 : Int) - 52 ≤ 0 then m <<< (0 - ((m.log2 : Int) - 52)).toNat
        else roundShift m ((m.log2 : Int) - 52 - 0).toNat) ≤ 2 ^ 53 := by
      split
      · next hle =>
        have hk : m.log2 + 1 + (0 - ((m.log2 : Int) - 52)).toNat = 53 := by omega
        rw [Nat.shiftLeft_eq, ← hk, Nat.pow_add]
        exact Nat.mul_le_mul_right _ hlt.le
      · next hgt =>
        refine (roundShift_le _ _).trans ?_
        have hk : m.log2 + 1 = ((m.log2 : Int) - 52 - 0).toNat + 53 := by omega
        rw [hk, Nat.pow_add] at hlt
        exact Nat.div_lt_of_lt_mul hlt
    omega

end Patchbay
