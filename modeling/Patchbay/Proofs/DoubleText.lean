import Patchbay.Proofs.JsonRead
import Patchbay.Proofs.ShortestDigits
import Patchbay.Proofs.TomlRead

/-!
# Doubles in a document

A double is written with its shortest digits around a point. What is read has the value of these
digits, so it is the double again, its sign and zero included.
-/

set_option autoImplicit false

namespace Patchbay

open Float.Model Float.Model.UnpackedFloat

/-! ## Words -/

namespace Rounding

theorem unpackMantissa_toNat (word : BitVec Format.binary64.numBits) :
    (unpackMantissa word).toNat = word.toNat % 2 ^ 52 := by
  rw [unpackMantissa, BitVec.toNat_cast, BitVec.extractLsb_toNat, Nat.shiftRight_zero]
  rfl

theorem isInf_of_isFinite {x : Float} (h : x.isFinite = true) : x.isInf = false := by
  have hfinite : x.toModel.unpack.isFinite = true := h
  show x.toModel.unpack.isInf = false
  cases hx : x.toModel.unpack with
  | finite s m e hm => rfl
  | zero s => rfl
  | infinity s => rw [hx] at hfinite; cases hfinite
  | notANumber => rw [hx] at hfinite; cases hfinite

/-- A word beyond infinity is that of a NaN. -/
theorem unpack_beyond {word : BitVec Format.binary64.numBits}
    (h : 2047 * 2 ^ 52 < word.toNat % 2 ^ 63) :
    UnpackedFloat.unpack Format.binary64 word = .notANumber := by
  have hexp : unpackExponent word = -1#_ := by
    refine BitVec.eq_of_toNat_eq ?_
    rw [unpackExponent_toNat]
    show word.toNat / 2 ^ 52 % 2 ^ 11 = 2047
    omega
  have hlow : unpackMantissa word ≠ 0#_ := by
    intro hzero
    have hmod := unpackMantissa_toNat word
    rw [hzero] at hmod
    have : 0 = word.toNat % 2 ^ 52 := hmod
    omega
  rw [UnpackedFloat.unpack]
  simp only [if_pos hexp, if_neg hlow]

theorem isNaN_of_word {x : Float} (h : 2047 * 2 ^ 52 < x.toBits.toNat % 2 ^ 63) :
    x.isNaN = true := by
  show (UnpackedFloat.unpack Format.binary64 x.toBits.toBitVec).isNaN = true
  rw [unpack_beyond h]
  rfl

end Rounding

namespace Exact

theorem magnitude_toNat (word : UInt64) :
    (word &&& 0x7fffffffffffffff).toNat = word.toNat % 2 ^ 63 := by
  rw [UInt64.toNat_and, ← Nat.and_two_pow_sub_one_eq_mod]
  rfl

/-- A word is its magnitude behind its sign. -/
theorem signed_magnitude (word : UInt64) :
    (if decide (word ≥ 0x8000000000000000) then
      (word.toNat % 2 ^ 63).toUInt64 ||| 0x8000000000000000
    else (word.toNat % 2 ^ 63).toUInt64) = word := by
  have hlow : (word.toNat % 2 ^ 63).toUInt64.toNat = word.toNat % 2 ^ 63 := by
    rw [Nat.toUInt64_eq, UInt64.toNat_ofNat', Nat.mod_eq_of_lt (by omega)]
  have hlt := word.toNat_lt
  apply UInt64.toNat_inj.1
  split
  · next hsign =>
    have hle : 2 ^ 63 ≤ word.toNat := UInt64.le_iff_toNat_le.1 (of_decide_eq_true hsign)
    have hor : word.toNat % 2 ^ 63 ||| 2 ^ 63 = 2 ^ 63 * 1 + word.toNat % 2 ^ 63 := by
      rw [Nat.or_comm, Nat.two_pow_add_eq_or_of_lt (by omega), Nat.mul_one]
    rw [UInt64.toNat_or, hlow]
    show word.toNat % 2 ^ 63 ||| 2 ^ 63 = _
    omega
  · next hsign =>
    have hle : ¬ 2 ^ 63 ≤ word.toNat := fun hle =>
      hsign (decide_eq_true (UInt64.le_iff_toNat_le.2 hle))
    omega

/-- What a double that is no NaN stands for. -/
theorem ofDouble_cases {x : Float} (h : x.isNaN = false) :
    (∃ s, ofDouble x = infinite s ∧ x = if s then -1.0 / 0.0 else 1.0 / 0.0) ∨
    ∃ s word, word < BinaryFormat.double.infinity ∧
      ofDouble x = finite s (BinaryFormat.double.magnitude word).1
        (BinaryFormat.double.magnitude word).2 ∧
      x = Float.ofBits (if s then word.toUInt64 ||| 0x8000000000000000 else word.toUInt64) := by
  obtain ⟨s, hs⟩ : ∃ s, s = decide (x.toBits ≥ 0x8000000000000000) := ⟨_, rfl⟩
  obtain ⟨word, hword⟩ : ∃ word, word = x.toBits.toNat % 2 ^ 63 := ⟨_, rfl⟩
  have hx : x = Float.ofBits (if s then word.toUInt64 ||| 0x8000000000000000 else word.toUInt64) := by
    rw [hs, hword, signed_magnitude, Float.ofBits_toBits]
  have hvalue : ofDouble x = BinaryFormat.double.value s word := by
    rw [ofDouble, hs, hword, ← magnitude_toNat]
  have hle : ¬ BinaryFormat.double.infinity < word := by
    intro hlt
    rw [Rounding.isNaN_of_word (hword ▸ hlt)] at h
    cases h
  rw [BinaryFormat.value, if_neg hle] at hvalue
  split at hvalue
  · next hinf =>
    refine .inl ⟨s, hvalue, ?_⟩
    rw [hx, hinf]
    cases s <;> rfl
  · next hinf =>
    exact .inr ⟨s, word, by omega, hvalue, hx⟩

end Exact

/-! ## Digits -/

namespace Decimal

/-- The digits after the point. -/
def decimals (n places : ℕ) : List Char :=
  let low := Nat.toDigits 10 (n % 10 ^ places)
  List.replicate (places - low.length) '0' ++ low

theorem pointText_toList {n places : ℕ} (hplaces : 0 < places) : (pointText n places).toList =
    Nat.toDigits 10 (n / 10 ^ places) ++ '.' :: decimals n places := by
  rw [pointText, if_neg hplaces.ne']
  simp [digitText, decimals, zeros, Json.toList_pushn]

theorem length_decimals {n places : ℕ} (hplaces : 0 < places) :
    (decimals n places).length = places := by
  have hlow : (Nat.toDigits 10 (n % 10 ^ places)).length ≤ places :=
    (Nat.length_toDigits_le_iff (by decide) hplaces).2 (Nat.mod_lt _ (Nat.pow_pos (by decide)))
  simp only [decimals, List.length_append, List.length_replicate]
  omega

theorem isDigit_decimals {n places : ℕ} : ∀ c ∈ decimals n places, c.isDigit := by
  intro c hc
  rcases List.mem_append.1 hc with hc | hc
  · rw [List.eq_of_mem_replicate hc]
    rfl
  · exact Nat.isDigit_of_mem_toDigits (by decide) (by decide) hc

/-- The digits on both sides of the point make up the number. -/
theorem ofDigits_pointText {n places : ℕ} (hplaces : 0 < places) :
    ofDigits (Nat.toDigits 10 (n / 10 ^ places) ++ decimals n places) = n := by
  have hlow : Nat.ofDigitChars 10 (decimals n places) 0 = n % 10 ^ places := by
    rw [decimals, Nat.ofDigitChars_append, Nat.ofDigitChars_replicate_zero, Nat.mul_zero,
      Nat.ofDigitChars_ten_toDigits]
  rw [Toml.ofDigits_eq, Nat.ofDigitChars_append, Nat.ofDigitChars_ten_toDigits,
    Nat.ofDigitChars_eq_ofDigitChars_zero, hlow, length_decimals hplaces, Nat.div_add_mod]

/-- In positional notation a decimal is a number with a point before its last places. -/
theorem positional_eq (d : Decimal) : ∃ n places, 0 < places ∧
    d.positional 1 = pointText n places ∧ (⟨n, -(places : ℤ)⟩ : Decimal).value = d.value := by
  obtain ⟨k, hk⟩ : ∃ k, k = (-d.exponent).toNat := ⟨_, rfl⟩
  refine ⟨d.coefficient * 10 ^ d.exponent.toNat * 10 ^ (1 - k), max k 1,
    lt_max_of_lt_right Nat.one_pos, by rw [hk]; rfl, ?_⟩
  have hten := zpow_mul_toNat (b := 10) (by norm_num) d.exponent
  have hplaces : max k 1 = k + (1 - k) := by omega
  rw [← hk] at hten
  rw [value, value, zpow_neg, zpow_natCast, ← div_eq_mul_inv, div_eq_iff (by positivity), hplaces]
  push_cast
  rw [pow_add, ← hten]
  ring

end Decimal

/-! ## Reading -/

namespace Toml

/-- A point is no digit. -/
theorem digits?_point {cs ds : Chars} (h : ∀ c ∈ cs, c.isDigit) :
    digits? Char.isDigit (cs ++ '.' :: ds) = none := by
  have hgo (after : Bool) : digits?.go Char.isDigit after (cs ++ '.' :: ds) = none := by
    induction cs generalizing after with
    | nil => cases after <;> rfl
    | cons c cs ih =>
      rw [List.cons_append, digits?.go, if_pos (h c List.mem_cons_self),
        ih (fun d hd => h d (List.mem_cons_of_mem c hd))]
      rfl
  exact hgo false

theorem inNumber_pointText {n places : ℕ} (hplaces : 0 < places) :
    ∀ c ∈ (pointText n places).toList, InNumber c := by
  rw [Decimal.pointText_toList hplaces]
  intro c hc
  rcases List.mem_append.1 hc with hc | hc
  · exact inNumber_toDigits _ c hc
  · rcases List.mem_cons.1 hc with rfl | hc
    · exact .inr rfl
    · exact .inl (Decimal.isDigit_decimals c hc)

theorem double?_point {whole decimals : Chars} (negative : Bool)
    (hwhole : ∀ c ∈ whole, c.isDigit) (hdecimals : ∀ c ∈ decimals, c.isDigit)
    (hread : whole? whole = some whole) (hne : decimals ≠ []) :
    double? negative (whole ++ '.' :: decimals) =
      doubleOf? negative (.ofParts whole decimals 0) := by
  have hmark : ∀ c ∈ whole ++ '.' :: decimals, (!(c = 'e' || c = 'E' : Bool)) = true := by
    intro c hc
    have hnumber : InNumber c := by
      rcases List.mem_append.1 hc with hc | hc
      · exact .inl (hwhole c hc)
      · rcases List.mem_cons.1 hc with rfl | hc
        · exact .inr rfl
        · exact .inl (hdecimals c hc)
    simp [hnumber.ne (d := 'e') (by decide), hnumber.ne (d := 'E') (by decide)]
  obtain ⟨htake, hdrop⟩ := span_append ('.' :: decimals) (p := (· ≠ '.'))
    (fun c hc => decide_eq_true fun heq => by simpa [heq] using hwhole c hc) (by simp)
  have hread' : digits? Char.isDigit decimals = some decimals := digits?_go hdecimals (.inr hne)
  simp only [double?, List.takeWhile_eq_self_iff.2 hmark, List.dropWhile_eq_nil_iff.2 hmark, htake,
    hdrop, hread, hread']
  rfl

/-- The digits around a point as a double. -/
theorem unsigned?_pointText {negative : Bool} {n places : ℕ} (hplaces : 0 < places) :
    unsigned? negative (pointText n places).toList =
      doubleOf? negative ⟨n, -(places : ℤ)⟩ := by
  have hdigits := isDigit_toDigits (n / 10 ^ places)
  have hne : Decimal.decimals n places ≠ [] := by
    rw [← List.length_pos_iff, Decimal.length_decimals hplaces]
    exact hplaces
  have hparts : Decimal.ofParts (Nat.toDigits 10 (n / 10 ^ places)) (Decimal.decimals n places) 0 =
      ⟨n, -(places : ℤ)⟩ := by
    rw [Decimal.ofParts, Decimal.ofDigits_pointText hplaces, Decimal.length_decimals hplaces,
      zero_sub]
  rw [unsigned?_digits (inNumber_pointText hplaces), Decimal.pointText_toList hplaces]
  have hnone : whole? (Nat.toDigits 10 (n / 10 ^ places) ++ '.' :: Decimal.decimals n places) =
      none := by
    rw [whole?, digits?_point hdigits]
    rfl
  rw [hnone, ← hparts]
  exact double?_point negative hdigits Decimal.isDigit_decimals (whole?_toDigits _) hne

/-- Every double but NaN is read back from its text. -/
theorem reads_double {x : Float} (h : x.isNaN = false) (depth : ℕ) : Reads depth (.double x) := by
  obtain ⟨s, hx, rfl⟩ | ⟨s, word, hlt, hx, hbits⟩ := Exact.ofDouble_cases h
  · have htext : (valueText (.double (if s then -1.0 / 0.0 else 1.0 / 0.0))).toList =
        (if s then ['-'] else []) ++ ['i', 'n', 'f'] := by
      rw [valueText, NumberLayout.double, hx]
      cases s <;> rfl
    refine reads_token ?_ ?_ ?_ depth
    · rw [htext]
      simp
    · rw [htext]
      cases s <;> simp [isToken, Char.isAlphanum, Char.isAlpha, Char.isLower]
    · rw [htext]
      cases s <;> rfl
  · obtain ⟨n, places, hplaces, hpositional, hvalue⟩ := Decimal.positional_eq
      (Decimal.shortest .up .double (BinaryFormat.double.magnitude word).1
        (BinaryFormat.double.magnitude word).2)
    have htext : (valueText (.double x)).toList =
        (if s then ['-'] else []) ++ (pointText n places).toList := by
      rw [valueText, NumberLayout.double, hx, ← hpositional]
      cases s <;> simp [NumberLayout.exact, NumberLayout.decimal, numberLayout, Exact.isNegative]
    have hfinite : x.isFinite = true := hbits ▸ Rounding.isFinite_signed hlt s
    have hdouble : (⟨n, -(places : ℤ)⟩ : Decimal).toDouble s = x := by
      rw [Decimal.toDouble, BinaryFormat.ofDecimal_shortest hlt hvalue, hbits]
    refine reads_signed s _ htext ?_ (inNumber_pointText hplaces) ?_ depth
    · rw [Decimal.pointText_toList hplaces]
      simp
    · rw [unsigned?_pointText hplaces, doubleOf?]
      simp [hdouble, Rounding.isInf_of_isFinite hfinite]

end Toml

end Patchbay
