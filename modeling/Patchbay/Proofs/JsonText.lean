import Mathlib
import Patchbay.Json.Reader
import Patchbay.Json.Writer

/-!
# Strings and numbers in a text

A string is read back as it was whatever stands in it. A natural number is read back if it fits a
word. Where a number ends is told by what follows, so in a document it is read as it is on its own.
-/

set_option autoImplicit false

namespace Patchbay

namespace Json

/-! ## Strings -/

theorem hexUnit?_control :
    ∀ n < 32, hexUnit? '0' '0' (hexDigit (n / 16)) (hexDigit (n % 16)) = some n := by
  decide

theorem readText_control {c : Char} (h : c < ' ') (rest done : List Char) :
    readText ('\\' :: 'u' :: '0' :: '0' :: hexDigit (c.toNat / 16) :: hexDigit (c.toNat % 16) ::
      rest) done none false = readText rest (c :: done) none false := by
  have hn : c.toNat < 32 := h
  have hlead : isLead c.toNat = false := by
    rw [isLead, Bool.and_eq_false_iff, decide_eq_false_iff_not]
    exact .inl (by omega)
  have htrail : isTrail c.toNat = false := by
    rw [isTrail, Bool.and_eq_false_iff, decide_eq_false_iff_not]
    exact .inl (by omega)
  rw [readText.eq_def]
  simp only [hexUnit?_control _ hn, htrail, hlead, Char.ofNat_toNat, Bool.false_eq_true, if_false]

theorem readText_escapeChar (c : Char) (rest done : List Char) :
    readText (escapeChar c ++ rest) done none false = readText rest (c :: done) none false := by
  rw [escapeChar.eq_def]
  split
  · rfl
  · rfl
  · rfl
  · rfl
  · rfl
  · rfl
  · rfl
  · next hquote hslash _ _ _ _ _ =>
    split
    · next hc => exact readText_control hc rest done
    · next hc =>
      rw [List.singleton_append, readText]
      · rw [if_neg hc]
        rfl
      · exact fun h _ => hslash h
      · exact hquote
      · exact fun _ _ _ _ _ h _ => hslash h
      · exact fun _ h _ => hslash h
      · exact fun _ _ h _ => hslash h

theorem readText_escaped (cs rest done : List Char) :
    readText (cs.flatMap escapeChar ++ '"' :: rest) done none false =
      (.text (String.ofList (done.reverse ++ cs)), rest) := by
  induction cs generalizing done with
  | nil => simp [readText]
  | cons c cs ih =>
    rw [List.flatMap_cons, List.append_assoc, readText_escapeChar, ih]
    simp

theorem quote_toList (s : String) :
    (quote s).toList = '"' :: (s.toList.flatMap escapeChar ++ ['"']) := by
  rw [quote, String.toList_ofList]
  rfl

/-! ## Numbers -/

/-- What follows a value in a document: its end, a comma or a new line. -/
def Delimited (rest : List Char) : Prop :=
  rest = [] ∨ ∃ c cs, rest = c :: cs ∧ (c = ',' ∨ c = '\n')

variable {cs rest : List Char} {n : JsonNumber} {negative : Bool} {s : Significand}

theorem takeWhile_delimited (h : Delimited rest) (cs : List Char) :
    (cs ++ rest).takeWhile Char.isDigit = cs.takeWhile Char.isDigit := by
  induction cs with
  | nil => obtain rfl | ⟨c, cs, rfl, rfl | rfl⟩ := h <;> rfl
  | cons c cs ih => rw [List.cons_append, List.takeWhile_cons, List.takeWhile_cons, ih]

theorem dropWhile_delimited (h : Delimited rest) (cs : List Char) :
    (cs ++ rest).dropWhile Char.isDigit = cs.dropWhile Char.isDigit ++ rest := by
  induction cs with
  | nil => obtain rfl | ⟨c, cs, rfl, rfl | rfl⟩ := h <;> rfl
  | cons c cs ih =>
    rw [List.cons_append, List.dropWhile_cons, List.dropWhile_cons, ih]
    split <;> rfl

/-- Whether an exponent is negative, and what follows its sign. -/
def exponentSign : List Char → Bool × List Char
  | '+' :: rest => (false, rest)
  | '-' :: rest => (true, rest)
  | cs => (false, cs)

theorem exponentSign_append (h : cs ≠ []) (rest : List Char) :
    exponentSign (cs ++ rest) = ((exponentSign cs).1, (exponentSign cs).2 ++ rest) := by
  cases cs with
  | nil => exact absurd rfl h
  | cons c cs =>
    by_cases hplus : c = '+'
    · rw [hplus]
      rfl
    · by_cases hminus : c = '-'
      · rw [hminus]
        rfl
      · simp [exponentSign, hplus, hminus]

theorem readExponent_eq (negative : Bool) (s : Significand) (cs : List Char) :
    readExponent negative s cs =
      if ((exponentSign cs).2.takeWhile Char.isDigit).isEmpty then brokenNumber (exponentSign cs).2
      else
        (.number (.ofScientific negative s (exponentSign cs).1
          (digitsOf ((exponentSign cs).2.takeWhile Char.isDigit))),
          (exponentSign cs).2.dropWhile Char.isDigit) := rfl

theorem readExponent_append (hrest : Delimited rest)
    (h : readExponent negative s cs = (.number n, [])) :
    readExponent negative s (cs ++ rest) = (.number n, rest) := by
  cases cs with
  | nil => cases h
  | cons c cs =>
    rw [readExponent_eq] at h ⊢
    rw [exponentSign_append (by simp)]
    simp only [takeWhile_delimited hrest, dropWhile_delimited hrest]
    split
    · next hempty =>
      rw [if_pos hempty] at h
      cases h
    · next hempty =>
      rw [if_neg hempty, Prod.mk.injEq] at h
      rw [h.1, h.2]
      rfl

theorem readFraction_append (hrest : Delimited rest)
    (h : readFraction negative s cs = (.number n, [])) :
    readFraction negative s (cs ++ rest) = (.number n, rest) := by
  cases cs with
  | nil =>
    cases h
    obtain rfl | ⟨c, cs, rfl, rfl | rfl⟩ := hrest <;> rfl
  | cons c cs =>
    rw [readFraction.eq_def] at h
    split at h
    · next heq =>
      cases heq
      rw [List.cons_append, readFraction]
      simp only [takeWhile_delimited hrest, dropWhile_delimited hrest]
      split
      · next hempty =>
        rw [if_pos hempty] at h
        cases h
      · next hempty =>
        rw [if_neg hempty] at h
        -- behind the decimals there is an exponent or nothing
        cases hd : cs.dropWhile Char.isDigit with
        | nil =>
          rw [hd] at h
          cases h
          obtain rfl | ⟨c, cs, rfl, rfl | rfl⟩ := hrest <;> rfl
        | cons d ds =>
          rw [hd] at h
          simp only [List.cons_append]
          split at h
          · next heq =>
            cases heq
            exact readExponent_append hrest h
          · next heq =>
            cases heq
            exact readExponent_append hrest h
          · cases h
    · next heq =>
      cases heq
      exact readExponent_append hrest h
    · next heq =>
      cases heq
      exact readExponent_append hrest h
    · cases h

theorem readNumber_append (hrest : Delimited rest)
    (h : readNumber negative cs = (.number n, [])) :
    readNumber negative (cs ++ rest) = (.number n, rest) := by
  rw [readNumber] at h ⊢
  rw [takeWhile_delimited hrest, dropWhile_delimited hrest]
  split at h
  · cases h
  · cases h
  · exact readFraction_append hrest h

theorem skipBlank_of_not {c : Char} (h : isBlank c = false) (cs : List Char) :
    skipBlank (c :: cs) = c :: cs := by
  rw [skipBlank, List.dropWhile_cons, h]
  rfl

theorem skipBlank_append (h : skipBlank cs ≠ []) (rest : List Char) :
    skipBlank (cs ++ rest) = skipBlank cs ++ rest := by
  rw [skipBlank] at h
  rw [skipBlank, skipBlank, List.dropWhile_append, if_neg (by simpa using h)]

theorem isBlank_digit {c : Char} (h : c.isDigit = true) : isBlank c = false := by
  rw [Bool.eq_false_iff]
  intro hb
  simp only [isBlank, Bool.or_eq_true, decide_eq_true_eq] at hb
  rcases hb with ((rfl | rfl) | rfl) | rfl <;> cases h

theorem readValue_skipBlank (fuel : Nat) (cs : List Char) :
    readValue (fuel + 1) cs = readValue (fuel + 1) (skipBlank cs) := by
  have hidem : skipBlank (skipBlank cs) = skipBlank cs := List.dropWhile_idempotent _ cs
  rw [readValue.eq_def, readValue.eq_def]
  simp only [hidem]

theorem readValue_digit {c : Char} (h : c.isDigit = true) (fuel : Nat) (cs : List Char) :
    readValue (fuel + 1) (c :: cs) = readNumber false (c :: cs) := by
  rw [readValue.eq_def]
  simp only [skipBlank_of_not (isBlank_digit h)]
  split
  case h_1 heq => cases heq
  case h_9 heq =>
    cases heq
    rw [if_pos h]
  all_goals
    next heq =>
    cases heq
    cases h

theorem readWord_ne (value : Json) (hvalue : value ≠ .number n) (word cs : List Char) :
    (readWord value word cs).1 ≠ .number n := by
  induction word generalizing cs with
  | nil => exact hvalue
  | cons w word ih =>
    cases cs with
    | nil => simp [readWord]
    | cons c cs =>
      rw [readWord]
      split
      · exact ih cs
      · simp

/-- A number that is read on its own is read just so in front of a delimiter. -/
theorem readValue_append (hrest : Delimited rest) (h : readValue 1 cs = (.number n, []))
    (fuel : Nat) : readValue (fuel + 1) (cs ++ rest) = (.number n, rest) := by
  rw [readValue.eq_def] at h
  simp only at h
  split at h
  · cases h
  · cases h
  · cases h
  · cases h
  · exact absurd (congrArg Prod.fst h) (readWord_ne _ (by simp) _ _)
  · exact absurd (congrArg Prod.fst h) (readWord_ne _ (by simp) _ _)
  · exact absurd (congrArg Prod.fst h) (readWord_ne _ (by simp) _ _)
  · next heq =>
    rw [readValue_skipBlank, skipBlank_append (heq ▸ List.cons_ne_nil _ _), heq]
    exact readNumber_append hrest h
  · next heq =>
    split at h
    · next hdigit =>
      rw [readValue_skipBlank, skipBlank_append (heq ▸ List.cons_ne_nil _ _), heq,
        List.cons_append, readValue_digit hdigit]
      exact readNumber_append hrest h
    · cases h

theorem digitValue_digitChar : ∀ d < 10, digitValue d.digitChar = d := by decide

theorem pushInteger_digitChar {m d : Nat} (hd : d < 10) (h : 10 * m + d ≤ greatestWord) :
    Significand.pushInteger ⟨m, 0⟩ d.digitChar = ⟨10 * m + d, 0⟩ := by
  rw [Nat.mul_comm] at h
  rw [Significand.pushInteger, digitValue_digitChar d hd, if_neg, Nat.mul_comm]
  simp only [not_or, not_lt]
  exact ⟨le_rfl, h⟩

theorem foldl_pushInteger (n : Nat) (h : n ≤ greatestWord) :
    (Nat.toDigits 10 n).foldl Significand.pushInteger ⟨0, 0⟩ = ⟨n, 0⟩ := by
  induction n using Nat.base_induction 10 (by decide) with
  | single d hd =>
    rw [Nat.toDigits_of_lt_base hd]
    simpa using pushInteger_digitChar (m := 0) hd (by omega)
  | digit m d hd hm ih =>
    rw [← Nat.toDigits_append_toDigits (by decide) hm hd, List.foldl_append, ih (by omega),
      Nat.toDigits_of_lt_base hd]
    exact pushInteger_digitChar hd h

/-- Only zero starts with a zero. -/
theorem toDigits_head (n : Nat) (hn : 0 < n) : (Nat.toDigits 10 n).head? ≠ some '0' := by
  induction n using Nat.base_induction 10 (by decide) with
  | single d hd =>
    rw [Nat.toDigits_of_lt_base hd]
    interval_cases d <;> decide
  | digit m d hd hm ih =>
    rw [← Nat.toDigits_append_toDigits (by decide) hm hd,
      List.head?_append_of_ne_nil _ Nat.toDigits_ne_nil]
    exact ih hm

theorem readNumber_toDigits {n : Nat} (h : n ≤ greatestWord) :
    readNumber false (Nat.toDigits 10 n) = (.number (.natural n), []) := by
  have hdigits (c : Char) (hc : c ∈ Nat.toDigits 10 n) : c.isDigit = true :=
    Nat.isDigit_of_mem_toDigits (by decide) le_rfl hc
  rw [readNumber, List.takeWhile_eq_self_iff.2 hdigits, List.dropWhile_eq_nil_iff.2 hdigits]
  split
  · next heq => exact absurd heq Nat.toDigits_ne_nil
  · next heq =>
    rcases Nat.eq_zero_or_pos n with rfl | hn
    · rw [Nat.toDigits_zero] at heq
      cases heq
    · exact absurd (by rw [heq]; rfl) (toDigits_head n hn)
  · rw [foldl_pushInteger n h]
    rfl

theorem readValue_natural {n : Nat} (h : n ≤ greatestWord) :
    readValue 1 (numberText (.natural n)).toList = (.number (.natural n), []) := by
  rw [numberText, digitText, String.toList_ofList, ← readNumber_toDigits h]
  cases hds : Nat.toDigits 10 n with
  | nil => exact absurd hds Nat.toDigits_ne_nil
  | cons c cs =>
    have hc : c ∈ Nat.toDigits 10 n := hds ▸ List.mem_cons_self
    exact readValue_digit (Nat.isDigit_of_mem_toDigits (by decide) le_rfl hc) 0 cs

end Json

end Patchbay
