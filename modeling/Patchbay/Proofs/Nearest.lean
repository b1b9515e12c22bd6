import Mathlib
import Patchbay.Number.Reading

/-!
# The values that round to a number

All values in an interval around a number are rounded to it, the ends included if its significand is
even. Rounding a binary number goes to the nearest integer in the unit of the result. Of a quotient
only so many bits are kept, but they tell on which side of either end of an interval it lies.
-/

set_option autoImplicit false

namespace Patchbay

/-! ## Nearest integers -/

/-- No integer is nearer to a value; if another one is as near, this one is even. -/
structure Nearest (n : ℕ) (y : ℚ) : Prop where
  low : n - 1 / 2 ≤ y
  high : y ≤ n + 1 / 2
  odd : n % 2 = 1 → n - 1 / 2 < y ∧ y < n + 1 / 2

variable {m n k : ℕ} {x y : ℚ}

theorem Nearest.not_lt (hm : Nearest m y) (hn : Nearest n y) : ¬ m < n := by
  intro hlt
  have hle : (m : ℚ) + 1 ≤ n := by exact_mod_cast hlt
  have := hm.high
  have := hn.low
  -- the value is halfway between the two, and one of them is odd
  have heq : (m : ℚ) + 1 = n := by linarith
  have hsucc : m + 1 = n := by exact_mod_cast heq
  rcases Nat.mod_two_eq_zero_or_one m with h | h
  · have := hn.odd (by omega)
    linarith
  · have := hm.odd h
    linarith

theorem Nearest.unique (hm : Nearest m y) (hn : Nearest n y) : m = n :=
  Nat.le_antisymm (Nat.not_lt.1 (hn.not_lt hm)) (Nat.not_lt.1 (hm.not_lt hn))

theorem nearest_self (n : ℕ) : Nearest n n := by
  constructor
  · linarith
  · linarith
  · intro _
    constructor <;> linarith

/-- To which quotients an integer is nearest, without a division. -/
theorem nearest_div_iff {a d : ℕ} (hd : 0 < d) : Nearest n (a / d) ↔
    2 * (n * d) ≤ 2 * a + d ∧ 2 * a ≤ 2 * (n * d) + d ∧
      (n % 2 = 1 → 2 * (n * d) < 2 * a + d ∧ 2 * a < 2 * (n * d) + d) := by
  have hpos : (0 : ℚ) < d := by exact_mod_cast hd
  have hlow : (n : ℚ) - 1 / 2 ≤ a / d ↔ 2 * (n * d) ≤ 2 * a + d := by
    rw [le_div_iff₀ hpos, ← Nat.cast_le (α := ℚ)]
    push_cast
    constructor <;> intro h <;> linarith
  have hhigh : (a : ℚ) / d ≤ n + 1 / 2 ↔ 2 * a ≤ 2 * (n * d) + d := by
    rw [div_le_iff₀ hpos, ← Nat.cast_le (α := ℚ)]
    push_cast
    constructor <;> intro h <;> linarith
  have hlow' : (n : ℚ) - 1 / 2 < a / d ↔ 2 * (n * d) < 2 * a + d := by
    rw [lt_div_iff₀ hpos, ← Nat.cast_lt (α := ℚ)]
    push_cast
    constructor <;> intro h <;> linarith
  have hhigh' : (a : ℚ) / d < n + 1 / 2 ↔ 2 * a < 2 * (n * d) + d := by
    rw [div_lt_iff₀ hpos, ← Nat.cast_lt (α := ℚ)]
    push_cast
    constructor <;> intro h <;> linarith
  rw [← hlow, ← hhigh, ← hlow', ← hhigh']
  exact ⟨fun h => ⟨h.low, h.high, h.odd⟩, fun h => ⟨h.1, h.2.1, h.2.2⟩⟩

theorem nearest_roundShift (n k : ℕ) : Nearest (roundShift n k) (n / 2 ^ k) := by
  have hsplit : 2 ^ k * (n / 2 ^ k) + n % 2 ^ k = n := Nat.div_add_mod n (2 ^ k)
  have hlt : n % 2 ^ k < 2 ^ k := Nat.mod_lt n (Nat.two_pow_pos k)
  have hrest : n - n / 2 ^ k * 2 ^ k = n % 2 ^ k := by
    rw [Nat.mul_comm]
    omega
  have hcast : (2 : ℚ) ^ k = (2 ^ k : ℕ) := by push_cast; rfl
  rw [hcast, nearest_div_iff (Nat.two_pow_pos k), roundShift]
  simp only [Nat.shiftRight_eq_div_pow, Nat.shiftLeft_eq, hrest, Nat.one_mul]
  generalize n / 2 ^ k = q at *
  generalize n % 2 ^ k = r at *
  generalize 2 ^ k = d at *
  rw [Nat.mul_comm] at hsplit
  split
  · rw [Nat.add_mul]
    omega
  · omega

/-! ## Quotients with a bit that says whether anything is left -/

/-- Twice a quotient, and one more unless the division is exact. -/
def sticky (a d : ℕ) : ℕ := 2 * (a / d) + if a % d = 0 then 0 else 1

section Sticky

variable {a d : ℕ}

theorem le_sticky (hd : 0 < d) (h : n * d ≤ a) : 2 * n ≤ sticky a d := by
  have := (Nat.le_div_iff_mul_le hd).2 h
  rw [sticky]
  omega

theorem lt_sticky (hd : 0 < d) (h : n * d < a) : 2 * n < sticky a d := by
  have hle := (Nat.le_div_iff_mul_le hd).2 h.le
  have hsplit := Nat.div_add_mod a d
  rw [sticky]
  split
  · next hexact =>
    have hne : n ≠ a / d := by
      rintro rfl
      rw [Nat.mul_comm] at h
      omega
    omega
  · omega

theorem sticky_le (h : a ≤ n * d) : sticky a d ≤ 2 * n := by
  rcases Nat.eq_zero_or_pos d with rfl | hd
  · simp [sticky, Nat.le_zero.1 h]
  · have hle := (Nat.div_le_iff_le_mul hd).2 (by omega : a ≤ n * d + d - 1)
    have hsplit := Nat.div_add_mod a d
    rw [sticky]
    split
    · omega
    · next hrest =>
      have hne : a / d ≠ n := by
        rintro rfl
        rw [Nat.mul_comm] at h
        omega
      omega

theorem sticky_lt (hd : 0 < d) (h : a < n * d) : sticky a d < 2 * n := by
  have := (Nat.div_lt_iff_lt_mul hd).2 h
  rw [sticky]
  split <;> omega

end Sticky

/-! ## Intervals -/

/-- A power with an integer exponent is a quotient of powers with natural ones. -/
theorem zpow_mul_toNat {b : ℚ} (hb : b ≠ 0) (g : ℤ) : b ^ g * b ^ (-g).toNat = b ^ g.toNat := by
  rw [← zpow_natCast, ← zpow_natCast, ← zpow_add₀ hb]
  congr 1
  omega

namespace Interval

/-- Whether a value lies in an interval. -/
def Holds (i : Interval) (x : ℚ) : Prop :=
  if i.closed then i.below ≤ x * i.denominator ∧ x * i.denominator ≤ i.above
  else i.below < x * i.denominator ∧ x * i.denominator < i.above

variable {i : Interval}

theorem contains_scale (i : Interval) (g : ℤ) (n : ℕ) :
    (i.scale g).contains n ↔ i.Holds (n * 10 ^ g) := by
  have hpos : (0 : ℚ) < 10 ^ (-g).toNat := by positivity
  have hvalue : (n : ℚ) * (i.denominator * 10 ^ g.toNat) =
      n * 10 ^ g * i.denominator * 10 ^ (-g).toNat := by
    rw [← zpow_mul_toNat (by norm_num) g]
    ring
  have hle (a : ℕ) : a * Nat.pow 10 (-g).toNat ≤ n * (i.denominator * Nat.pow 10 g.toNat) ↔
      (a : ℚ) ≤ n * 10 ^ g * i.denominator := by
    rw [← mul_le_mul_iff_left₀ hpos, ← hvalue]
    exact_mod_cast Iff.rfl
  have hge (a : ℕ) : n * (i.denominator * Nat.pow 10 g.toNat) ≤ a * Nat.pow 10 (-g).toNat ↔
      n * 10 ^ g * i.denominator ≤ (a : ℚ) := by
    rw [← mul_le_mul_iff_left₀ hpos, ← hvalue]
    exact_mod_cast Iff.rfl
  have hlt (a : ℕ) : a * Nat.pow 10 (-g).toNat < n * (i.denominator * Nat.pow 10 g.toNat) ↔
      (a : ℚ) < n * 10 ^ g * i.denominator := by
    rw [← Nat.not_le, hge, not_le]
  have hgt (a : ℕ) : n * (i.denominator * Nat.pow 10 g.toNat) < a * Nat.pow 10 (-g).toNat ↔
      n * 10 ^ g * i.denominator < (a : ℚ) := by
    rw [← Nat.not_le, hle, not_le]
  rw [Holds, ← hle, ← hge, ← hlt, ← hgt, contains]
  cases hclosed : i.closed <;> simp [scale, hclosed]

/-- Membership, if the ends are multiples of a power of two. -/
theorem holds_iff {low high k : ℕ} (hpos : 0 < i.denominator)
    (hlow : i.below * 2 ^ k = low * i.denominator)
    (hhigh : i.above * 2 ^ k = high * i.denominator) :
    i.Holds x ↔ if i.closed then low ≤ x * 2 ^ k ∧ x * 2 ^ k ≤ high
      else low < x * 2 ^ k ∧ x * 2 ^ k < high := by
  have hden : (0 : ℚ) < i.denominator := by exact_mod_cast hpos
  have hpow : (0 : ℚ) < 2 ^ k := by positivity
  have hlow : (i.below : ℚ) * 2 ^ k = low * i.denominator := by exact_mod_cast hlow
  have hhigh : (i.above : ℚ) * 2 ^ k = high * i.denominator := by exact_mod_cast hhigh
  have hx : x * i.denominator * 2 ^ k = x * 2 ^ k * i.denominator := by ring
  rw [Holds, ← mul_le_mul_iff_left₀ hpow, hx, hlow, mul_le_mul_iff_left₀ hden,
    ← mul_le_mul_iff_left₀ hpow (b := x * i.denominator), hx, hhigh, mul_le_mul_iff_left₀ hden,
    ← mul_lt_mul_iff_left₀ hpow, hx, hlow, mul_lt_mul_iff_left₀ hden,
    ← mul_lt_mul_iff_left₀ hpow (b := x * i.denominator), hx, hhigh, mul_lt_mul_iff_left₀ hden]

/-- The last bit of a quotient keeps it on its side of the ends. -/
theorem Holds.sticky {a d low high : ℕ} (hd : 0 < d) (hpos : 0 < i.denominator)
    (hlow : i.below * 2 ^ k = low * i.denominator) (hhigh : i.above * 2 ^ k = high * i.denominator)
    (h : i.Holds (a / d)) :
    i.Holds (Patchbay.sticky (a * 2 ^ k) d * 2 ^ (-(k : ℤ) - 1)) := by
  have hden : (0 : ℚ) < d := by exact_mod_cast hd
  have hvalue : (a : ℚ) / d * 2 ^ k = (a * 2 ^ k : ℕ) / d := by
    push_cast
    ring
  have hkept : (Patchbay.sticky (a * 2 ^ k) d : ℚ) * 2 ^ (-(k : ℤ) - 1) * 2 ^ k =
      Patchbay.sticky (a * 2 ^ k) d / 2 := by
    rw [mul_assoc, ← zpow_natCast, ← zpow_add₀ (by norm_num), div_eq_mul_inv]
    congr 1
    have hexp : -(k : ℤ) - 1 + k = -1 := by ring
    rw [hexp, zpow_neg_one]
  rw [holds_iff hpos hlow hhigh, hvalue, le_div_iff₀ hden, div_le_iff₀ hden, lt_div_iff₀ hden,
    div_lt_iff₀ hden] at h
  rw [holds_iff hpos hlow hhigh, hkept, le_div_iff₀ two_pos, div_le_iff₀ two_pos,
    lt_div_iff₀ two_pos, div_lt_iff₀ two_pos]
  norm_cast at h ⊢
  simp only [Nat.mul_comm _ 2]
  split
  · next hclosed =>
    rw [if_pos hclosed] at h
    exact ⟨le_sticky hd h.1, sticky_le h.2⟩
  · next hclosed =>
    rw [if_neg hclosed] at h
    exact ⟨lt_sticky hd h.1, sticky_lt hd h.2⟩

end Interval

namespace BinaryFormat

variable {f : BinaryFormat} {e : ℤ}

/-- The significand and exponent of a number that is not infinite. -/
structure Canonical (f : BinaryFormat) (m : ℕ) (e : ℤ) : Prop where
  small : m < 2 ^ (f.fraction + 1)
  least : f.least ≤ e
  normal : f.least < e → 2 ^ f.fraction ≤ m

theorem ofMagnitude_denominator_pos (f : BinaryFormat) (m : ℕ) (e : ℤ) :
    0 < (Interval.ofMagnitude f m e).denominator := by
  show 0 < 1 <<< (2 - e).toNat
  rw [Nat.one_shiftLeft]
  exact Nat.two_pow_pos _

/-- The interval of a number in quarters of its unit. -/
theorem holds_ofMagnitude (f : BinaryFormat) (m : ℕ) (e : ℤ) (x : ℚ) :
    (Interval.ofMagnitude f m e).Holds x ↔
      let lower := if m = 1 <<< f.fraction ∧ f.least < e then 1 else 2
      if m % 2 = 0 then ((4 * m - lower : ℕ) : ℚ) ≤ 4 * (x / 2 ^ e) ∧
        4 * (x / 2 ^ e) ≤ ((4 * m + 2 : ℕ) : ℚ)
      else ((4 * m - lower : ℕ) : ℚ) < 4 * (x / 2 ^ e) ∧
        4 * (x / 2 ^ e) < ((4 * m + 2 : ℕ) : ℚ) := by
  have hpos : (0 : ℚ) < 2 ^ (e - 2) * 2 ^ (2 - e).toNat := by positivity
  have hscale : (2 : ℚ) ^ (e - 2) * 2 ^ (2 - e).toNat = 2 ^ (e - 2).toNat := by
    rw [← zpow_mul_toNat two_ne_zero (e - 2), neg_sub]
  have hend (a : ℕ) : ((a <<< (e - 2).toNat : ℕ) : ℚ) = a * (2 ^ (e - 2) * 2 ^ (2 - e).toNat) := by
    rw [hscale, Nat.shiftLeft_eq]
    push_cast
    rfl
  have hvalue : x * ((1 <<< (2 - e).toNat : ℕ) : ℚ) =
      4 * (x / 2 ^ e) * (2 ^ (e - 2) * 2 ^ (2 - e).toNat) := by
    have hquarter : (2 : ℚ) ^ (e - 2) = 2 ^ e / 4 := by
      rw [zpow_sub₀ two_ne_zero]
      norm_num
    have hne : (2 : ℚ) ^ e ≠ 0 := by positivity
    rw [hquarter, Nat.one_shiftLeft]
    push_cast
    field_simp
  simp only [Interval.Holds, Interval.ofMagnitude, hend, hvalue, mul_le_mul_iff_left₀ hpos,
    mul_lt_mul_iff_left₀ hpos, decide_eq_true_eq]

theorem nearest_of_holds (hm : 0 < m) (h : (Interval.ofMagnitude f m e).Holds x) :
    Nearest m (x / 2 ^ e) := by
  rw [holds_ofMagnitude] at h
  dsimp only at h
  have hlower : (4 * m : ℚ) - 2 ≤ ((4 * m - if m = 1 <<< f.fraction ∧ f.least < e then 1 else 2 :
      ℕ) : ℚ) := by
    have hle : 4 * m - 2 ≤ 4 * m - if m = 1 <<< f.fraction ∧ f.least < e then 1 else 2 := by
      split <;> omega
    have hcast : ((4 * m - 2 : ℕ) : ℚ) = 4 * m - 2 := by
      rw [Nat.cast_sub (by omega)]
      push_cast
      rfl
    rw [← hcast]
    exact_mod_cast hle
  push_cast at h
  split at h
  · next heven => exact ⟨by linarith, by linarith, fun hodd => by omega⟩
  · exact ⟨by linarith, by linarith, fun _ => ⟨by linarith, by linarith⟩⟩

/-- Below a power of two the interval is half as wide. -/
theorem le_of_holds (hm : m = 2 ^ f.fraction) (he : f.least < e)
    (h : (Interval.ofMagnitude f m e).Holds x) : m - 1 / 4 ≤ x / 2 ^ e := by
  have hpos : 0 < m := hm ▸ Nat.two_pow_pos _
  have hquarter : ((4 * m - 1 : ℕ) : ℚ) = 4 * m - 1 := by
    rw [Nat.cast_sub (by omega)]
    push_cast
    rfl
  have hpower : m = 1 <<< f.fraction ∧ f.least < e := ⟨by rw [Nat.one_shiftLeft, hm], he⟩
  rw [holds_ofMagnitude] at h
  simp only [if_pos hpower, hquarter] at h
  split at h <;> linarith

/-! ## Rounding -/

/-- The integer nearest to a binary number in some unit. -/
theorem nearest_shift (a : ℕ) (b unit : ℤ) :
    Nearest (if unit ≤ b then a <<< (b - unit).toNat else roundShift a (unit - b).toNat)
      (a * 2 ^ b / 2 ^ unit) := by
  have hvalue : (a : ℚ) * 2 ^ b / 2 ^ unit = a * 2 ^ (b - unit) := by
    rw [zpow_sub₀ two_ne_zero, mul_div_assoc]
  rw [hvalue]
  split
  · next hle =>
    obtain ⟨k, hk⟩ := Int.eq_ofNat_of_zero_le (Int.sub_nonneg.2 hle)
    rw [hk, Int.toNat_natCast, zpow_natCast, Nat.shiftLeft_eq]
    exact_mod_cast nearest_self _
  · next hlt =>
    obtain ⟨k, hk⟩ := Int.eq_ofNat_of_zero_le (a := unit - b) (by omega)
    have hneg : b - unit = -(k : ℤ) := by omega
    rw [hk, hneg, Int.toNat_natCast, zpow_neg, zpow_natCast, ← div_eq_mul_inv]
    exact nearest_roundShift a k

/-- Rounding in the right unit. -/
theorem round_of_unit {a : ℕ} {b unit : ℤ} (ha : a ≠ 0)
    (hunit : max (b + a.log2 - f.fraction) f.least = unit)
    (h : Nearest n (a * 2 ^ b / 2 ^ unit)) :
    f.round a b = min ((unit - f.least).toNat <<< f.fraction + n) f.infinity := by
  rw [round, if_neg ha, hunit]
  dsimp only
  rw [(nearest_shift a b unit).unique h]

/-- The place of the greatest bit of a binary number. -/
theorem log2_bounds {a : ℕ} (ha : a ≠ 0) (b : ℤ) :
    (2 : ℚ) ^ (b + a.log2) ≤ a * 2 ^ b ∧ (a : ℚ) * 2 ^ b < 2 ^ (b + a.log2 + 1) := by
  have hunit : (0 : ℚ) < 2 ^ b := by positivity
  constructor
  · have hle : ((2 ^ a.log2 : ℕ) : ℚ) ≤ a := by exact_mod_cast Nat.log2_self_le ha
    rw [zpow_add₀ two_ne_zero, mul_comm, zpow_natCast, mul_le_mul_iff_left₀ hunit]
    exact_mod_cast hle
  · have hlt : (a : ℚ) < ((2 ^ (a.log2 + 1) : ℕ) : ℚ) := by exact_mod_cast Nat.lt_log2_self
    rw [add_assoc, zpow_add₀ two_ne_zero, mul_comm, mul_lt_mul_iff_right₀ hunit]
    exact_mod_cast hlt

theorem lt_of_power_lt {j k : ℤ} (h : (2 : ℚ) ^ j < 2 ^ k) : j < k :=
  (zpow_lt_zpow_iff_right₀ (by norm_num)).1 h

theorem fraction_zpow (f : BinaryFormat) (e : ℤ) :
    (2 : ℚ) ^ (f.fraction + e) = 2 ^ f.fraction * 2 ^ e := by
  rw [zpow_add₀ two_ne_zero, zpow_natCast]

theorem lt_of_holds (hc : f.Canonical m e) (hm : 0 < m)
    (h : (Interval.ofMagnitude f m e).Holds x) : x < 2 ^ (f.fraction + e + 1) := by
  have hunit : (0 : ℚ) < 2 ^ e := by positivity
  have hsmall : (m : ℚ) + 1 ≤ 2 ^ f.fraction * 2 := by
    rw [← pow_succ]
    exact_mod_cast hc.small
  have hhigh := (nearest_of_holds hm h).high
  rw [zpow_add_one₀ two_ne_zero, fraction_zpow, mul_right_comm, ← div_lt_iff₀ hunit]
  linarith

theorem pos_of_holds (hm : 0 < m) (h : (Interval.ofMagnitude f m e).Holds x) : 0 < x := by
  have hunit : (0 : ℚ) < 2 ^ e := by positivity
  have hone : (1 : ℚ) ≤ m := by exact_mod_cast hm
  have hlow := (nearest_of_holds hm h).low
  rw [← div_pos_iff_of_pos_right hunit]
  linarith

/-- A value below a number with a smaller unit than it is just below a power of two. -/
theorem eq_power_of_lt (hc : f.Canonical m e) (he : f.least < e)
    (h : (Interval.ofMagnitude f m e).Holds x) (hx : x < 2 ^ (f.fraction + e)) :
    m = 2 ^ f.fraction := by
  have hunit : (0 : ℚ) < 2 ^ e := by positivity
  have hnormal := hc.normal he
  have hlow := (nearest_of_holds ((Nat.two_pow_pos _).trans_le hnormal) h).low
  rw [fraction_zpow, ← div_lt_iff₀ hunit] at hx
  refine Nat.le_antisymm (Nat.not_lt.1 fun hlt => ?_) hnormal
  have hlt : (2 : ℚ) ^ f.fraction + 1 ≤ m := by exact_mod_cast hlt
  linarith

/-- In the smaller unit such a value is still nearest to the power of two. -/
theorem nearest_power (hm : m = 2 ^ f.fraction) (he : f.least < e)
    (h : (Interval.ofMagnitude f m e).Holds x) (hx : x < 2 ^ (f.fraction + e)) :
    Nearest (2 ^ (f.fraction + 1)) (x / 2 ^ (e - 1)) ∧ (2 : ℚ) ^ (f.fraction + e - 1) ≤ x := by
  have hunit : (0 : ℚ) < 2 ^ e := by positivity
  have hquarter := le_of_holds hm he h
  have hcast : (m : ℚ) = 2 ^ f.fraction := by exact_mod_cast hm
  have hone : (1 : ℚ) ≤ m := by exact_mod_cast hm ▸ Nat.one_le_two_pow
  have hhalf : x / 2 ^ (e - 1) = 2 * (x / 2 ^ e) := by
    rw [zpow_sub_one₀ two_ne_zero]
    field_simp
  rw [fraction_zpow, ← div_lt_iff₀ hunit, ← hcast] at hx
  constructor
  · rw [hhalf]
    refine ⟨?_, ?_, fun hodd => ?_⟩
    · push_cast
      rw [pow_succ, ← hcast]
      linarith
    · push_cast
      rw [pow_succ, ← hcast]
      linarith
    · rw [pow_succ] at hodd
      omega
  · rw [zpow_sub_one₀ two_ne_zero, fraction_zpow, mul_right_comm, ← le_div_iff₀ hunit, ← hcast]
    linarith

/-- Every binary number in the interval of a number is rounded to it. -/
theorem round_of_holds (hc : f.Canonical m e) (hm : 0 < m) {a : ℕ} {b : ℤ}
    (h : (Interval.ofMagnitude f m e).Holds (a * 2 ^ b)) :
    f.round a b = min ((e - f.least).toNat <<< f.fraction + m) f.infinity := by
  have ha : a ≠ 0 := by
    rintro rfl
    have hpos := pos_of_holds hm h
    rw [Nat.cast_zero, zero_mul] at hpos
    exact lt_irrefl _ hpos
  obtain ⟨hlow, hhigh⟩ := log2_bounds ha b
  have hbelow := lt_of_power_lt (hlow.trans_lt (lt_of_holds hc hm h))
  have hleast := hc.least
  by_cases hplace : e = f.least ∨ f.fraction + e ≤ b + a.log2
  · exact round_of_unit ha (by omega) (nearest_of_holds hm h)
  · -- the value lies below a power of two, in the smaller unit
    have he : f.least < e := by omega
    have hx : (a : ℚ) * 2 ^ b < 2 ^ (f.fraction + e) :=
      hhigh.trans_le (zpow_le_zpow_right₀ (by norm_num) (by omega))
    have hpower := eq_power_of_lt hc he h hx
    obtain ⟨hnear, habove⟩ := nearest_power hpower he h hx
    have hplace' := lt_of_power_lt (habove.trans_lt hhigh)
    have hsucc : (e - f.least).toNat = (e - 1 - f.least).toNat + 1 := by omega
    rw [round_of_unit ha (by omega) hnear, hpower, Nat.shiftLeft_eq, Nat.shiftLeft_eq, hsucc,
      pow_succ, Nat.add_mul]
    congr 1
    omega

/-! ## Quotients -/

theorem roundRatio_eq (f : BinaryFormat) (n d : ℕ) : f.roundRatio n d =
    f.round (sticky (n * 2 ^ (d.log2 + f.fraction + 4)) d)
      (-((d.log2 + f.fraction + 4 : ℕ) : ℤ) - 1) := by
  rw [roundRatio, Nat.shiftLeft_eq]
  rfl

/-- Every quotient in the interval of a number is rounded to it. -/
theorem roundRatio_of_holds (hc : f.Canonical m e) (hm : 0 < m) {d : ℕ} (hd : 0 < d)
    (h : (Interval.ofMagnitude f m e).Holds (n / d)) :
    f.roundRatio n d = min ((e - f.least).toNat <<< f.fraction + m) f.infinity := by
  have hden : (0 : ℚ) < d := by exact_mod_cast hd
  have hn : (1 : ℚ) ≤ n := by
    have hpos := (div_pos_iff_of_pos_right hden).1 (pos_of_holds hm h)
    exact_mod_cast hpos
  -- the bits kept reach below the quarters of the unit
  have hbits : 2 - e ≤ (d.log2 + f.fraction + 4 : ℕ) := by
    have hlt : (2 : ℚ) ^ (-(d.log2 + 1 : ℕ) : ℤ) < 2 ^ (f.fraction + e + 1) := by
      have hlog : (d : ℚ) < 2 ^ (d.log2 + 1) := by exact_mod_cast Nat.lt_log2_self
      rw [zpow_neg, zpow_natCast]
      calc ((2 : ℚ) ^ (d.log2 + 1))⁻¹ < (d : ℚ)⁻¹ := inv_strictAnti₀ hden hlog
        _ ≤ n / d := by rw [div_eq_mul_inv]; exact le_mul_of_one_le_left (by positivity) hn
        _ < 2 ^ (f.fraction + e + 1) := lt_of_holds hc hm h
    have := lt_of_power_lt hlt
    push_cast at this ⊢
    omega
  obtain ⟨j, hj⟩ : ∃ j, (e - 2).toNat + (d.log2 + f.fraction + 4) = (2 - e).toNat + j :=
    Nat.exists_eq_add_of_le (by omega)
  have hend (a : ℕ) : a <<< (e - 2).toNat * 2 ^ (d.log2 + f.fraction + 4) =
      a * 2 ^ j * 1 <<< (2 - e).toNat := by
    rw [Nat.shiftLeft_eq, Nat.one_shiftLeft, Nat.mul_assoc, ← Nat.pow_add, hj, Nat.mul_assoc,
      ← Nat.pow_add, Nat.add_comm j]
  rw [roundRatio_eq]
  exact round_of_holds hc hm
    (h.sticky hd (ofMagnitude_denominator_pos f m e) (hend _) (hend _))

/-! ## Words -/

/-- A word counts the numbers of the format up from zero. -/
theorem magnitude_spec (f : BinaryFormat) (word : ℕ) :
    f.Canonical (f.magnitude word).1 (f.magnitude word).2 ∧
    ((f.magnitude word).2 - f.least).toNat <<< f.fraction + (f.magnitude word).1 = word := by
  have hsplit : 2 ^ f.fraction * (word / 2 ^ f.fraction) + word % 2 ^ f.fraction = word :=
    Nat.div_add_mod word (2 ^ f.fraction)
  have hlow : word % 2 ^ f.fraction < 2 ^ f.fraction := Nat.mod_lt word (Nat.two_pow_pos _)
  rw [magnitude]
  simp only [Nat.shiftRight_eq_div_pow, Nat.shiftLeft_eq, Nat.one_mul]
  split
  · next hzero =>
    rw [hzero, Nat.mul_zero, Nat.zero_add] at hsplit
    exact ⟨⟨by rw [pow_succ]; omega, le_rfl, fun h => absurd h (lt_irrefl _)⟩,
      by simpa using hsplit⟩
  · next hfield =>
    obtain ⟨k, hk⟩ := Nat.exists_eq_add_one_of_ne_zero hfield
    have hexp : f.least + (word / 2 ^ f.fraction : ℕ) - 1 = f.least + k := by omega
    rw [hexp]
    refine ⟨⟨by rw [pow_succ]; omega, by omega, fun _ => Nat.le_add_right _ _⟩, ?_⟩
    have hplace : (f.least + (k : ℤ) - f.least).toNat = k := by omega
    rw [hk, Nat.mul_comm, Nat.add_mul] at hsplit
    rw [hplace]
    omega

end BinaryFormat

end Patchbay
