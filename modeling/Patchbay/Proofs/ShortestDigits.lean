import Patchbay.Proofs.FiniteDouble
import Patchbay.Proofs.Nearest

/-!
# Shortest digits read back

The digits found for a double lie in its interval: a grid of powers of ten that is finer than the
interval is wide has a point in it, and the search comes to one before it gives up. So the digits
are rounded to the double they were found for.
-/

set_option autoImplicit false

namespace Patchbay

/-! ## Decimals -/

namespace Decimal

variable {d : Decimal}

def value (d : Decimal) : ℚ := d.coefficient * 10 ^ d.exponent

theorem value_trim (fuel c : ℕ) (e : ℤ) : (trim fuel c e).value = c * 10 ^ e := by
  induction fuel generalizing c e with
  | zero => rfl
  | succ fuel ih =>
    rw [trim]
    split
    · next h =>
      have hc : c / 10 * 10 = c := Nat.div_mul_cancel (Nat.dvd_of_mod_eq_zero h.2)
      have hcast : (c : ℚ) = (c / 10 : ℕ) * 10 := by exact_mod_cast hc.symm
      rw [ih, zpow_add_one₀ (by norm_num), hcast]
      ring
    · rfl

theorem value_normalize (d : Decimal) : d.normalize.value = d.value := value_trim _ _ _

theorem digitCount_bounds {c : ℕ} (hc : c ≠ 0) :
    10 ^ (digitCount c - 1) ≤ c ∧ c < 10 ^ digitCount c := by
  have hpos : 0 < digitCount c := Nat.length_toDigits_pos
  refine ⟨Nat.not_lt.1 fun hlt => ?_, (Nat.length_toDigits_le_iff (by decide) hpos).1 le_rfl⟩
  rcases Nat.eq_zero_or_pos (digitCount c - 1) with hzero | hfew
  · rw [hzero] at hlt
    omega
  · have : digitCount c ≤ digitCount c - 1 := (Nat.length_toDigits_le_iff (by decide) hfew).2 hlt
    omega

/-- The first digit stands at the leading power of ten. -/
theorem leading_bounds (hd : d.coefficient ≠ 0) :
    (10 : ℚ) ^ d.leading ≤ d.value ∧ d.value < 10 ^ (d.leading + 1) := by
  obtain ⟨hlow, hhigh⟩ := digitCount_bounds hd
  have hpos : (0 : ℚ) < 10 ^ d.exponent := by positivity
  have hcount : 0 < digitCount d.coefficient := Nat.length_toDigits_pos
  have hleading : d.leading = (digitCount d.coefficient - 1 : ℕ) + d.exponent := by
    rw [leading]
    omega
  constructor
  · rw [value, hleading, zpow_add₀ (by norm_num), zpow_natCast, mul_le_mul_iff_left₀ hpos]
    exact_mod_cast hlow
  · have hnext : d.leading + 1 = (digitCount d.coefficient : ℕ) + d.exponent := by omega
    rw [value, hnext, zpow_add₀ (by norm_num), zpow_natCast, mul_lt_mul_iff_left₀ hpos]
    exact_mod_cast hhigh

end Decimal

/-! ## Grids -/

namespace Interval

variable {i : Interval} {tie : Tie} {g : ℤ}

theorem holds_of_nearest? {n : ℕ} (h : (i.scale g).nearest? tie = some n) :
    i.Holds (n * 10 ^ g) := by
  rw [← contains_scale]
  rw [nearest?] at h
  dsimp only at h
  split at h
  · next hq hq' =>
    split at h <;> cases h
    · exact hq
    · exact hq'
  · next hq _ => cases h; exact hq
  · next hq => cases h; exact hq
  · cases h

/-- If neither neighbour is in the interval, it fits between them. -/
theorem above_le_of_nearest?_eq_none (hbelow : i.below < i.value) (habove : i.value < i.above)
    (hpos : 0 < i.denominator) (h : i.nearest? tie = none) : i.above ≤ i.below + i.denominator := by
  have hsplit : i.denominator * (i.value / i.denominator) + i.value % i.denominator = i.value :=
    Nat.div_add_mod _ _
  have hlt := Nat.mod_lt i.value hpos
  have hout : i.contains (i.value / i.denominator) = false ∧
      i.contains (i.value / i.denominator + 1) = false := by
    rw [nearest?] at h
    dsimp only at h
    split at h
    · cases h
    · cases h
    · cases h
    · next hq hq' => exact ⟨hq, hq'⟩
  rw [Nat.mul_comm] at hsplit
  simp only [contains, Nat.add_mul, Nat.one_mul] at hout
  obtain ⟨hq, hq'⟩ := hout
  cases hclosed : i.closed <;> simp [hclosed] at hq hq' <;> omega

/-- A grid that is finer than the interval of a number is wide has a point in it. -/
theorem exists_nearest?_ofMagnitude {f : BinaryFormat} {m : ℕ} {e : ℤ} (hm : 0 < m)
    (h : (10 : ℚ) ^ g < 3 * 2 ^ (e - 2)) :
    ∃ n, ((ofMagnitude f m e).scale g).nearest? tie = some n := by
  by_contra hnone
  rw [← Option.isSome_iff_exists, Option.not_isSome_iff_eq_none] at hnone
  have hup : 0 < 2 ^ (e - 2).toNat := Nat.two_pow_pos _
  have hscale : 0 < Nat.pow 10 (-g).toNat := Nat.pow_pos (by decide)
  have hgrid : 0 < Nat.pow 10 g.toNat := Nat.pow_pos (by decide)
  have hwide := above_le_of_nearest?_eq_none ?_ ?_ ?_ hnone
  · -- the interval is at least three quarters of the unit wide
    have hle : 3 * 2 ^ (e - 2).toNat * 10 ^ (-g).toNat ≤ 2 ^ (2 - e).toNat * 10 ^ g.toNat := by
      simp only [scale, ofMagnitude, Nat.shiftLeft_eq, Nat.one_mul] at hwide
      have hquarters : (4 * m - if m = 2 ^ f.fraction ∧ f.least < e then 1 else 2) + 3 ≤
          4 * m + 2 := by
        split <;> omega
      have := Nat.mul_le_mul_right (Nat.pow 10 (-g).toNat)
        (Nat.mul_le_mul_right (2 ^ (e - 2).toNat) hquarters)
      rw [Nat.add_mul, Nat.add_mul] at this
      exact Nat.le_of_add_le_add_left (this.trans hwide)
    have htwo := zpow_mul_toNat (b := 2) two_ne_zero (e - 2)
    have hten := zpow_mul_toNat (b := 10) (by norm_num) g
    rw [neg_sub] at htwo
    have hcast : (3 : ℚ) * 2 ^ (e - 2).toNat * 10 ^ (-g).toNat ≤
        2 ^ (2 - e).toNat * 10 ^ g.toNat := by
      exact_mod_cast hle
    have hpos : (0 : ℚ) < 2 ^ (2 - e).toNat * 10 ^ (-g).toNat := by positivity
    rw [← htwo, ← hten] at hcast
    refine absurd h (not_lt.2 ?_)
    rw [← mul_le_mul_iff_left₀ hpos]
    linarith
  · simp only [scale, ofMagnitude, Nat.shiftLeft_eq]
    refine Nat.mul_lt_mul_of_pos_right (Nat.mul_lt_mul_of_pos_right ?_ hup) hscale
    split <;> omega
  · simp only [scale, ofMagnitude, Nat.shiftLeft_eq]
    exact Nat.mul_lt_mul_of_pos_right (Nat.mul_lt_mul_of_pos_right (by omega) hup) hscale
  · exact Nat.mul_pos (BinaryFormat.ofMagnitude_denominator_pos f m e) hgrid

end Interval

/-! ## The search -/

theorem Decimal.search_holds {i : Interval} {tie : Tie} {fuel j : ℕ} {g : ℤ} (hj : j < fuel)
    (h : ∃ n, (i.scale (g - j)).nearest? tie = some n) :
    i.Holds (search tie i fuel g).value := by
  induction fuel generalizing g j with
  | zero => exact absurd hj (Nat.not_lt_zero j)
  | succ fuel ih =>
    rw [search]
    split
    · next n hn =>
      rw [value_normalize]
      exact Interval.holds_of_nearest? hn
    · next hnone =>
      cases j with
      | zero =>
        obtain ⟨n, hn⟩ := h
        rw [Nat.cast_zero, sub_zero, hnone] at hn
        cases hn
      | succ j =>
        refine ih (Nat.lt_of_succ_lt_succ hj) ?_
        have hnext : g - 1 - j = g - (j + 1 : ℕ) := by omega
        rwa [hnext]

/-- The first estimate of a decimal logarithm, from a difference of bit lengths. -/
def logEstimate (bits : ℤ) : ℤ := bits * 1233 / 4096 - 1

/-- Powers are compared as those of two bases are that are nearly equal. -/
theorem zpow_le_zpow_of_pow_le {a b : ℚ} (ha : 1 < a) (hb : 1 < b) {i j : ℕ} (hi : i ≠ 0)
    (h : a ^ i ≤ b ^ j) {m n : ℤ} (hm : 0 ≤ m) (hmn : j * m ≤ i * n) : a ^ m ≤ b ^ n := by
  have ha' : 0 < a := by linarith
  have hb' : 0 < b := by linarith
  refine (pow_le_pow_iff_left₀ (zpow_nonneg ha'.le _) (zpow_nonneg hb'.le _) hi).1 ?_
  calc (a ^ m) ^ i = (a ^ i) ^ m := by rw [← zpow_natCast, ← zpow_natCast, zpow_comm]
    _ ≤ (b ^ j) ^ m := zpow_le_zpow_left₀ hm (by positivity) h
    _ = b ^ (j * m) := by rw [← zpow_natCast, ← zpow_mul]
    _ ≤ b ^ (i * n) := zpow_le_zpow_right₀ hb.le hmn
    _ = (b ^ n) ^ i := by rw [← zpow_natCast, ← zpow_mul, mul_comm]

/-- The estimate is never too high. -/
theorem logEstimate_le {bits : ℤ} (hlow : -1100 ≤ bits) (hhigh : bits ≤ 1100) :
    (10 : ℚ) ^ logEstimate bits ≤ 2 ^ (bits - 1) := by
  have hten : (10 : ℚ) ^ 59 ≤ 2 ^ 196 := by norm_num
  have htwo : (2 : ℚ) ^ 93 ≤ 10 ^ 28 := by norm_num
  have hdef : logEstimate bits = bits * 1233 / 4096 - 1 := rfl
  by_cases hbits : 1 ≤ bits
  · by_cases hpos : 0 ≤ logEstimate bits
    · exact zpow_le_zpow_of_pow_le (by norm_num) (by norm_num) (by decide) hten hpos (by omega)
    · calc (10 : ℚ) ^ logEstimate bits ≤ 10 ^ (0 : ℤ) :=
          zpow_le_zpow_right₀ (by norm_num) (by omega)
        _ = 2 ^ (0 : ℤ) := by rw [zpow_zero, zpow_zero]
        _ ≤ 2 ^ (bits - 1) := zpow_le_zpow_right₀ (by norm_num) (by omega)
  · have hinv : (2 : ℚ) ^ (1 - bits) ≤ 10 ^ (-logEstimate bits) :=
      zpow_le_zpow_of_pow_le (by norm_num) (by norm_num) (by decide) htwo (by omega) (by omega)
    rw [← neg_sub, zpow_neg, zpow_neg] at hinv
    exact (inv_le_inv₀ (by positivity) (by positivity)).1 hinv

theorem log10Quotient_le {n d : ℕ} (hn : 0 < n) (hd : 0 < d)
    (hlow : -1100 ≤ (n.log2 : ℤ) - d.log2) (hhigh : (n.log2 : ℤ) - d.log2 ≤ 1100) :
    (10 : ℚ) ^ log10Quotient n d ≤ n / d := by
  have hden : (0 : ℚ) < d := by exact_mod_cast hd
  have hreach (k : ℤ) (h : Nat.pow 10 k.toNat * d ≤ n * Nat.pow 10 (-k).toNat) :
      (10 : ℚ) ^ k ≤ n / d := by
    have hpos : (0 : ℚ) < 10 ^ (-k).toNat := by positivity
    have hten := zpow_mul_toNat (b := 10) (by norm_num) k
    have hcast : (10 : ℚ) ^ k.toNat * d ≤ n * 10 ^ (-k).toNat := by exact_mod_cast h
    rw [← hten] at hcast
    rw [le_div_iff₀ hden, ← mul_le_mul_iff_left₀ hpos]
    linarith
  rw [log10Quotient]
  dsimp only
  split
  · next h => exact hreach _ (of_decide_eq_true h)
  · split
    · next h => exact hreach _ (of_decide_eq_true h)
    · refine (logEstimate_le hlow hhigh).trans ?_
      have hbelow : (2 : ℚ) ^ n.log2 ≤ n := by exact_mod_cast Nat.log2_self_le hn.ne'
      have habove : (d : ℚ) < 2 ^ (d.log2 + 1) := by exact_mod_cast Nat.lt_log2_self
      have hsplit : (2 : ℚ) ^ ((n.log2 : ℤ) - d.log2 - 1) = 2 ^ n.log2 / 2 ^ (d.log2 + 1) := by
        rw [sub_sub, zpow_sub₀ two_ne_zero, zpow_natCast]
        exact_mod_cast rfl
      rw [hsplit, div_le_div_iff₀ (by positivity) hden]
      exact mul_le_mul hbelow habove.le hden.le (Nat.cast_nonneg n)

/-! ## Doubles -/

section Doubles

open BinaryFormat

variable {m : ℕ} {e : ℤ}

theorem log10Quotient_double (hc : double.Canonical m e) (he : e ≤ 971) (hm : 0 < m) :
    (10 : ℚ) ^ log10Quotient (Interval.ofMagnitude .double m e).value
      (Interval.ofMagnitude .double m e).denominator ≤ m * 2 ^ e := by
  have hleast : -1074 ≤ e := hc.least
  have hlog : m.log2 < 53 := (Nat.log2_lt hm.ne').2 hc.small
  have hvalue : (Interval.ofMagnitude .double m e).value = m <<< (2 + (e - 2).toNat) := by
    show (4 * m) <<< (e - 2).toNat = _
    rw [Nat.shiftLeft_eq, Nat.shiftLeft_eq, Nat.pow_add]
    ring
  have hden : (Interval.ofMagnitude .double m e).denominator = 1 <<< (2 - e).toNat := rfl
  have hlogs : (m <<< (2 + (e - 2).toNat)).log2 = m.log2 + (2 + (e - 2).toNat) :=
    Rounding.log2_shiftLeft _ _ hm.ne'
  have hlogs' : (1 <<< (2 - e).toNat).log2 = (2 - e).toNat := by
    rw [Nat.one_shiftLeft, Nat.log2_two_pow]
  have hpos : 0 < m <<< (2 + (e - 2).toNat) := by
    rw [Nat.shiftLeft_eq]
    exact Nat.mul_pos hm (Nat.two_pow_pos _)
  have hpos' : 0 < 1 <<< (2 - e).toNat := by
    rw [Nat.one_shiftLeft]
    exact Nat.two_pow_pos _
  rw [hvalue, hden]
  refine (log10Quotient_le hpos hpos' (by omega) (by omega)).trans_eq ?_
  have htwo := zpow_mul_toNat (b := 2) two_ne_zero (e - 2)
  have hunit : (2 : ℚ) ^ e = 2 ^ 2 * 2 ^ (e - 2) := by
    rw [← zpow_natCast, ← zpow_add₀ two_ne_zero]
    congr 1
    omega
  rw [neg_sub] at htwo
  rw [Nat.shiftLeft_eq, Nat.one_shiftLeft, div_eq_iff (by positivity), hunit]
  push_cast
  rw [pow_add, ← htwo]
  ring

/-- Seventeen digits are enough for a double, and the search goes on so far. -/
theorem shortest_holds (hc : double.Canonical m e) (he : e ≤ 971) (hm : 0 < m) (tie : Tie) :
    (Interval.ofMagnitude .double m e).Holds (Decimal.shortest tie .double m e).value := by
  have hfirst := log10Quotient_double hc he hm
  have hunit : (0 : ℚ) < 2 ^ e := by positivity
  have hsmall : (m : ℚ) < 2 ^ 53 := by exact_mod_cast hc.small
  rw [Decimal.shortest, if_neg hm.ne']
  refine Decimal.search_holds (j := 17) (by decide) (Interval.exists_nearest?_ofMagnitude hm ?_)
  rw [zpow_sub₀ (by norm_num), zpow_sub₀ two_ne_zero, div_lt_iff₀ (by positivity)]
  refine hfirst.trans_lt ?_
  have hlast : (2 : ℚ) ^ 53 ≤ 3 / 2 ^ 2 * 10 ^ 17 := by norm_num
  calc (m : ℚ) * 2 ^ e < 2 ^ 53 * 2 ^ e := by gcongr
    _ ≤ 3 / 2 ^ 2 * 10 ^ 17 * 2 ^ e := by gcongr
    _ = 3 * (2 ^ e / 2 ^ (2 : ℤ)) * 10 ^ ((17 : ℕ) : ℤ) := by
      rw [zpow_natCast]
      norm_num
      ring

theorem two_pow_lt_ten_pow : 2 ^ 1075 < 10 ^ 400 ∧ 2 ^ 1024 < 10 ^ 401 := by decide +kernel

/-- Where a decimal in the interval of a double has its first digit. -/
theorem leading_of_holds (hc : double.Canonical m e) (he : e ≤ 971) (hm : 0 < m) {d : Decimal}
    (h : (Interval.ofMagnitude .double m e).Holds d.value) :
    d.coefficient ≠ 0 ∧ -decimalBound ≤ d.leading ∧ d.leading ≤ decimalBound := by
  have hnear := nearest_of_holds hm h
  have hunit : (0 : ℚ) < 2 ^ e := by positivity
  have hleast : -1074 ≤ e := hc.least
  have hlow : (2 : ℚ) ^ (-1075 : ℤ) ≤ d.value := by
    have hone : (1 : ℚ) ≤ m := by exact_mod_cast hm
    calc (2 : ℚ) ^ (-1075 : ℤ) ≤ 2 ^ (e - 1) := zpow_le_zpow_right₀ (by norm_num) (by omega)
      _ = 1 / 2 * 2 ^ e := by rw [zpow_sub_one₀ two_ne_zero]; ring
      _ ≤ (m - 1 / 2) * 2 ^ e := by gcongr; linarith
      _ ≤ d.value := (le_div_iff₀ hunit).1 hnear.low
  have hhigh : d.value < 2 ^ (1024 : ℤ) := by
    refine (lt_of_holds hc hm h).trans_le (zpow_le_zpow_right₀ (by norm_num) ?_)
    show (52 : ℤ) + e + 1 ≤ 1024
    omega
  have hd : d.coefficient ≠ 0 := by
    intro hzero
    have hpos := pos_of_holds hm h
    rw [Decimal.value, hzero, Nat.cast_zero, zero_mul] at hpos
    exact lt_irrefl _ hpos
  obtain ⟨hfirst, hnext⟩ := Decimal.leading_bounds hd
  rw [decimalBound]
  refine ⟨hd, not_lt.1 fun hlt => ?_, not_lt.1 fun hlt => ?_⟩
  · have htiny : (10 : ℚ) ^ (d.leading + 1) ≤ 10 ^ (-400 : ℤ) :=
      zpow_le_zpow_right₀ (by norm_num) (by omega)
    have hless : (10 : ℚ) ^ (-400 : ℤ) < 2 ^ (-1075 : ℤ) := by
      rw [zpow_neg, zpow_neg, zpow_ofNat, zpow_ofNat]
      exact inv_strictAnti₀ (by positivity) (by exact_mod_cast two_pow_lt_ten_pow.1)
    exact absurd hlow (not_le.2 (hnext.trans_le (htiny.trans hless.le)))
  · have hhuge : (10 : ℚ) ^ (401 : ℤ) ≤ 10 ^ d.leading :=
      zpow_le_zpow_right₀ (by norm_num) (by omega)
    have hmore : (2 : ℚ) ^ (1024 : ℤ) < 10 ^ (401 : ℤ) := by
      rw [zpow_ofNat, zpow_ofNat]
      exact_mod_cast two_pow_lt_ten_pow.2
    exact absurd (hhuge.trans hfirst) (not_le.2 (hhigh.trans hmore))

/-- Every decimal in the interval of a double is read as that double. -/
theorem ofDecimal_of_holds (hc : double.Canonical m e) (he : e ≤ 971) (hm : 0 < m) {d : Decimal}
    (h : (Interval.ofMagnitude .double m e).Holds d.value) : double.ofDecimal d =
      min ((e - double.least).toNat <<< double.fraction + m) double.infinity := by
  obtain ⟨hd, hlow, hhigh⟩ := leading_of_holds hc he hm h
  have hten := zpow_mul_toNat (b := 10) (by norm_num) d.exponent
  rw [ofDecimal, if_neg hd, if_neg (not_lt.2 hhigh), if_neg (not_lt.2 hlow)]
  split
  · next hwhole =>
    refine round_of_holds hc hm ?_
    have hneg : (-d.exponent).toNat = 0 := by omega
    have hvalue : d.value =
        ((d.coefficient * Nat.pow 10 d.exponent.toNat : ℕ) : ℚ) * 2 ^ (0 : ℤ) := by
      rw [hneg, pow_zero, mul_one] at hten
      rw [Decimal.value, hten, zpow_zero, mul_one]
      exact_mod_cast rfl
    exact hvalue ▸ h
  · next hfraction =>
    refine roundRatio_of_holds hc hm (Nat.pow_pos (by decide)) ?_
    have hwhole : d.exponent.toNat = 0 := by omega
    have hvalue : d.value =
        (d.coefficient : ℚ) / (Nat.pow 10 (-d.exponent).toNat : ℕ) := by
      rw [hwhole, pow_zero] at hten
      rw [Decimal.value, eq_div_iff (by exact_mod_cast (Nat.pow_pos (by decide)).ne'), mul_assoc]
      have hcast : ((Nat.pow 10 (-d.exponent).toNat : ℕ) : ℚ) = 10 ^ (-d.exponent).toNat := by
        exact_mod_cast rfl
      rw [hcast, hten, mul_one]
    exact hvalue ▸ h

/-- Digits with the value of the shortest ones are read as the word that these were found for. -/
theorem BinaryFormat.ofDecimal_shortest {word : ℕ} (hword : word < double.infinity) {tie : Tie}
    {d : Decimal} (hd : d.value = (Decimal.shortest tie .double (double.magnitude word).1
      (double.magnitude word).2).value) : double.ofDecimal d = word := by
  obtain ⟨hc, hcount⟩ := magnitude_spec double word
  generalize double.magnitude word = r at hd hc hcount
  obtain ⟨m, e⟩ := r
  have hleast : -1074 ≤ e := hc.least
  have hword : word < 2047 * 2 ^ 52 := hword
  have hplaces : (e + 1074).toNat * 2 ^ 52 + m = word := by
    rw [← hcount, Nat.shiftLeft_eq]
    rfl
  rcases Nat.eq_zero_or_pos m with rfl | hm
  · -- the only number without digits is zero
    have he : ¬ -1074 < e := fun hlt => Nat.not_succ_le_zero _ (hc.normal hlt)
    have hcoefficient : d.coefficient = 0 := by
      have hzero : (d.coefficient : ℚ) * 10 ^ d.exponent = 0 := by
        rw [← Decimal.value, hd, Decimal.shortest, if_pos rfl, Decimal.value, Nat.cast_zero,
          zero_mul]
      have hpos : (10 : ℚ) ^ d.exponent ≠ 0 := by positivity
      exact_mod_cast (mul_eq_zero.1 hzero).resolve_right hpos
    rw [ofDecimal, if_pos hcoefficient]
    omega
  · have he : e ≤ 971 := by
      by_contra hlt
      have hnormal : 2 ^ 52 ≤ m := hc.normal (by show -1074 < e; omega)
      omega
    rw [ofDecimal_of_holds hc he hm (hd ▸ shortest_holds hc he hm tie), hcount]
    exact min_eq_left hword.le

end Doubles

end Patchbay
