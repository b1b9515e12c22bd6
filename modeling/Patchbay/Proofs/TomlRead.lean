import Patchbay.Proofs.JsonText
import Patchbay.Proofs.TomlText

/-!
# Values in a document

A value is read back from its text if something follows that cannot be a part of it.
-/

set_option autoImplicit false

namespace Patchbay

namespace Toml

variable {cs rest : Chars} {depth : Nat}

/-! ## Values -/

/-- What stands after a value: a line end, a comma or the bracket of an array. -/
def Ends (rest : Chars) : Prop := ∃ c after, rest = c :: after ∧ (c = '\n' ∨ c = ',' ∨ c = ']')

/-- Starts with a character that is no space, comment, line end or closing bracket. -/
def Starts (cs : Chars) : Prop :=
  ∃ c after, cs = c :: after ∧ isBlank c = false ∧ c ∉ ['#', '\n', '\r', ']']

/-- Whether the text of a value is read back, inside `depth` others. -/
structure Reads (depth : Nat) (v : Toml) : Prop where
  starts : Starts (valueText v).toList
  reads : ∀ fuel rest, 2 * (valueText v).toList.length < fuel → Ends rest →
    value? fuel depth ((valueText v).toList ++ rest) = some (v, rest)

theorem Ends.newline (rest : Chars) : Ends ('\n' :: rest) := ⟨_, _, rfl, .inl rfl⟩

theorem Ends.comma (rest : Chars) : Ends (',' :: rest) := ⟨_, _, rfl, .inr (.inl rfl)⟩

theorem Ends.bracket (rest : Chars) : Ends (']' :: rest) := ⟨_, _, rfl, .inr (.inr rfl)⟩

theorem Ends.head?_ne {c : Char} (h : Ends rest) (hc : c ≠ '\n' ∧ c ≠ ',' ∧ c ≠ ']') :
    rest.head? ≠ some c := by
  obtain ⟨d, after, rfl, hd⟩ := h
  rintro heq
  obtain rfl := Option.some_inj.1 heq
  exact hd.elim hc.1 fun hd => hd.elim hc.2.1 hc.2.2

theorem Starts.append (h : Starts cs) (rest : Chars) : Starts (cs ++ rest) := by
  obtain ⟨c, after, rfl, hc⟩ := h
  exact ⟨c, after ++ rest, rfl, hc⟩

theorem Starts.skipBlank (h : Starts cs) : skipBlank cs = cs := by
  obtain ⟨c, after, rfl, hblank, -⟩ := h
  rw [Toml.skipBlank, List.dropWhile_cons, hblank]
  rfl

theorem Starts.skipComment (h : Starts cs) : skipComment cs = cs := by
  obtain ⟨c, after, rfl, -, hc⟩ := h
  rw [Toml.skipComment.eq_def]
  split
  · next heq => exact absurd (List.cons.inj heq).1 (fun h => hc (by simp [h]))
  · rfl

theorem Starts.newline? (h : Starts cs) : newline? cs = none := by
  obtain ⟨c, after, rfl, -, hc⟩ := h
  rw [Toml.newline?.eq_def]
  split
  · next heq => exact absurd (List.cons.inj heq).1 (fun h => hc (by simp [h]))
  · next heq => exact absurd (List.cons.inj heq).1 (fun h => hc (by simp [h]))
  · rfl

theorem Starts.skipSpace (h : Starts cs) (fuel : Nat) : skipSpace fuel cs = cs := by
  cases fuel with
  | zero => rfl
  | succ fuel => simp only [Toml.skipSpace, h.skipBlank, h.skipComment, h.newline?]

theorem Starts.skipAll (h : Starts cs) : skipAll cs = cs := h.skipSpace _

theorem skipAll_indent (h : Starts cs) (n : Nat) : skipAll (List.replicate n ' ' ++ cs) = cs := by
  have hskip : skipBlank (List.replicate n ' ' ++ cs) = cs := by
    rw [skipBlank, List.dropWhile_append_of_pos (fun c hc => List.eq_of_mem_replicate hc ▸ rfl)]
    exact h.skipBlank
  simp only [skipAll, skipSpace, hskip, h.skipComment, h.newline?]

/-! ## Strings -/

theorem quote_head (s : String) :
    ∃ c after, (quote s).toList = c :: after ∧ (c = '"' ∨ c = '\'') := by
  have hbasic (cs : Chars) : ∃ c after, (basic cs).toList = c :: after ∧ (c = '"' ∨ c = '\'') :=
    ⟨_, _, basic_toList cs, .inl rfl⟩
  have hlines (shape : TextShape) (cs : Chars) :
      ∃ c after, (basicLines shape cs).toList = c :: after ∧ (c = '"' ∨ c = '\'') :=
    ⟨_, _, basicLines_toList shape cs, .inl rfl⟩
  rw [quote]
  split
  · exact hbasic _
  · split
    · exact ⟨_, _, literal_toList _, .inr rfl⟩
    · split
      · exact hlines _ _
      · split
        · exact ⟨_, _, literalLines_toList _ _, .inr rfl⟩
        · split
          · exact hlines _ _
          · exact hbasic _

theorem reads_string (depth : Nat) (s : String) : Reads depth (.string s) := by
  obtain ⟨c, after, htext, hc⟩ := quote_head s
  refine ⟨⟨c, after, htext, ?_⟩, fun fuel rest hfuel hends => ?_⟩
  · rcases hc with rfl | rfl <;> decide
  · obtain ⟨fuel, rfl⟩ := Nat.exists_eq_add_one_of_ne_zero (Nat.ne_zero_of_lt hfuel)
    have hstring := string?_quote s (hends.head?_ne (c := '"') (by decide))
      (hends.head?_ne (c := '\'') (by decide))
    rw [valueText, htext, List.cons_append] at *
    rcases hc with rfl | rfl <;> simp [value?, hstring]

/-! ## Tokens -/

variable {v : Toml}

theorem value?_token (hcs : cs ≠ []) (htoken : ∀ c ∈ cs, isToken c) (h : ofToken? cs = some v)
    (hends : Ends rest) (fuel depth : Nat) :
    value? (fuel + 1) depth (cs ++ rest) = some (v, rest) := by
  obtain ⟨d, after, rfl, hd⟩ := hends
  obtain ⟨htake, hdrop⟩ := span_append (d :: after) htoken fun c hc => by
    obtain rfl := Option.some_inj.1 hc
    rcases hd with rfl | rfl | rfl <;> rfl
  have hspace : d ≠ ' ' := by rcases hd with rfl | rfl | rfl <;> decide
  have hread : token? (cs ++ d :: after) = some (v, d :: after) := by
    simp only [token?, htake, hdrop, h]
    split
    · next heq => exact absurd (List.cons.inj heq).1 hspace
    · rfl
  obtain ⟨c, cs, rfl⟩ := List.exists_cons_of_ne_nil hcs
  have hc := htoken c List.mem_cons_self
  have hquote : ¬ (c = '"' ∨ c = '\'') := by rintro (rfl | rfl) <;> exact absurd hc (by decide)
  rw [List.cons_append] at hread ⊢
  rw [value?.eq_def]
  dsimp only
  split
  · next heq => exact absurd ((List.cons.inj heq).1 ▸ hc) (by decide)
  · next heq => exact absurd ((List.cons.inj heq).1 ▸ hc) (by decide)
  · next heq =>
    rw [← (List.cons.inj heq).1, if_neg hquote, hread]
  · next heq => cases heq

theorem reads_token (hcs : (valueText v).toList ≠ [])
    (htoken : ∀ c ∈ (valueText v).toList, isToken c) (h : ofToken? (valueText v).toList = some v)
    (depth : Nat) : Reads depth v := by
  constructor
  · obtain ⟨c, after, heq⟩ := List.exists_cons_of_ne_nil hcs
    have hc := htoken c (heq ▸ List.mem_cons_self)
    have hnot {d : Char} (hd : isToken d = false) : c ≠ d := fun h => by simp [h, hd] at hc
    refine ⟨c, after, heq, ?_, ?_⟩
    · simp [isBlank, hnot (d := ' ') rfl, hnot (d := '\t') rfl]
    · simp [hnot (d := '#') rfl, hnot (d := '\n') rfl, hnot (d := '\r') rfl, hnot (d := ']') rfl]
  · intro fuel rest hfuel hends
    obtain ⟨fuel, rfl⟩ := Nat.exists_eq_add_one_of_ne_zero (Nat.ne_zero_of_lt hfuel)
    exact value?_token hcs htoken h hends fuel depth

theorem reads_boolean (depth : Nat) (b : Bool) : Reads depth (.boolean b) := by
  cases b with
  | true => exact reads_token (by decide) (by simp [valueText, isToken]) rfl depth
  | false => exact reads_token (by decide) (by simp [valueText, isToken]) rfl depth

/-! ## Numbers -/

theorem field?_snd {count low high : Nat} {ds after : Chars}
    (h : field? count low high cs = some (ds, after)) : after = cs.drop count := by
  simp only [field?] at h
  split at h <;> cases h
  rfl

theorem expect?_drop {c : Char} (h : c ∉ cs.drop 1) {count : Nat} (hcount : 1 ≤ count) :
    expect? c (cs.drop count) = none := by
  cases hdrop : cs.drop count with
  | nil => rfl
  | cons d after =>
    have hd : d ∈ cs.drop 1 :=
      (List.drop_sublist_drop_left cs hcount).subset (hdrop ▸ List.mem_cons_self)
    refine if_neg fun heq => h ?_
    rwa [heq]

theorem date?_eq_none (h : '-' ∉ cs.drop 1) : date? cs = none := by
  unfold date?
  cases hyear : field? 4 0 9999 cs with
  | none => rfl
  | some r =>
    obtain ⟨ds, after⟩ := r
    obtain rfl := field?_snd hyear
    simp [expect?_drop h]

theorem time?_eq_none (h : ':' ∉ cs.drop 1) : time? cs = none := by
  unfold time?
  cases hhour : field? 2 0 23 cs with
  | none => rfl
  | some r =>
    obtain ⟨ds, after⟩ := r
    obtain rfl := field?_snd hhour
    simp [expect?_drop h]

/-- A number is neither a word nor a moment. -/
theorem ofToken?_numeral (hminus : '-' ∉ cs.drop 1) (hcolon : ':' ∉ cs.drop 1)
    (hword : cs.head? ≠ some 't' ∧ cs.head? ≠ some 'f') : ofToken? cs = numeral? cs := by
  have hmoment : moment? cs = none := by
    rw [moment?, date?_eq_none hminus, time?_eq_none hcolon]
  rw [ofToken?.eq_def]
  split
  · exact absurd rfl hword.1
  · exact absurd rfl hword.2
  · rw [hmoment]
    rfl

theorem digits?_go (h : ∀ c ∈ cs, c.isDigit) {after : Bool} (hcs : after ∨ cs ≠ []) :
    digits?.go Char.isDigit after cs = some cs := by
  induction cs generalizing after with
  | nil =>
    obtain rfl : after = true := hcs.resolve_right (absurd rfl)
    rfl
  | cons c cs ih =>
    rw [digits?.go, if_pos (h c List.mem_cons_self),
      ih (fun d hd => h d (List.mem_cons_of_mem c hd)) (.inl rfl)]
    rfl

theorem whole?_of_digits (h : ∀ c ∈ cs, c.isDigit) (hcs : cs ≠ [])
    (hzero : ∀ d after, cs ≠ '0' :: d :: after) : whole? cs = some cs := by
  rw [whole?, digits?, digits?_go h (.inr hcs)]
  simp only [Option.bind_eq_bind, Option.bind_some]

/-- What may stand in the digits of a number. -/
def InNumber (c : Char) : Prop := c.isDigit ∨ c = '.'

theorem InNumber.ne {c d : Char} (h : InNumber c) (hd : d.isDigit = false ∧ d ≠ '.') : c ≠ d := by
  rintro rfl
  exact h.elim (fun h => by simp [hd.1] at h) hd.2

theorem isToken_of_inNumber {c : Char} (h : InNumber c) : isToken c := by
  rcases h with h | rfl
  · simp [isToken, Char.isAlphanum, h]
  · rfl

/-- A number from its digits, and the sign before them. -/
theorem numeral?_unsigned (h : ∀ c ∈ cs, InNumber c) (negative : Bool) :
    numeral? ((if negative then ['-'] else []) ++ cs) = unsigned? negative cs := by
  cases negative with
  | true => rfl
  | false =>
    have hsign : Numeral.splitSign cs = (false, cs) := by
      rw [Numeral.splitSign.eq_def]
      split
      · exact absurd rfl ((h '-' List.mem_cons_self).ne (by decide))
      · exact absurd rfl ((h '+' List.mem_cons_self).ne (by decide))
      · rfl
    show numeral? cs = _
    rw [numeral?.eq_def]
    split
    · exact absurd rfl ((h 'x' (by simp)).ne (by decide))
    · exact absurd rfl ((h 'o' (by simp)).ne (by decide))
    · exact absurd rfl ((h 'b' (by simp)).ne (by decide))
    · rw [hsign]

theorem unsigned?_digits (h : ∀ c ∈ cs, InNumber c) (negative : Bool) :
    unsigned? negative cs =
      match whole? cs with
      | some ds => integerOf? negative (Decimal.ofDigits ds)
      | none => double? negative cs := by
  rw [unsigned?.eq_def]
  split
  · exact absurd rfl ((h 'i' (by simp)).ne (by decide))
  · exact absurd rfl ((h 'n' (by simp)).ne (by decide))
  · rfl

/-- A signed number is a token that stands for nothing but the number. -/
theorem reads_signed (negative : Bool) (cs : Chars) (htext : (valueText v).toList =
    (if negative then ['-'] else []) ++ cs) (hcs : cs ≠ []) (h : ∀ c ∈ cs, InNumber c)
    (hread : unsigned? negative cs = some v) (depth : Nat) : Reads depth v := by
  have hnot {d : Char} (hd : d.isDigit = false ∧ d ≠ '.') : d ∉ cs := fun hmem => (h d hmem).ne hd rfl
  refine reads_token ?_ ?_ ?_ depth
  · rw [htext]
    simp [hcs]
  · rw [htext]
    intro c hc
    rcases List.mem_append.1 hc with hc | hc
    · cases negative with
      | true => obtain rfl := List.mem_singleton.1 hc; rfl
      | false => cases hc
    · exact isToken_of_inNumber (h c hc)
  · have hdrop : ((if negative then ['-'] else []) ++ cs).drop 1 ⊆ cs := by
      cases negative with
      | true => exact List.Subset.refl cs
      | false => exact List.drop_subset 1 cs
    rw [htext, ofToken?_numeral (fun hmem => hnot (by decide) (hdrop hmem))
      (fun hmem => hnot (by decide) (hdrop hmem)), numeral?_unsigned h, hread]
    cases negative with
    | true => exact ⟨by simp, by simp⟩
    | false =>
      exact ⟨fun hhead => hnot (by decide) (List.mem_of_mem_head? hhead),
        fun hhead => hnot (by decide) (List.mem_of_mem_head? hhead)⟩

theorem isDigit_toDigits (n : Nat) : ∀ c ∈ Nat.toDigits 10 n, c.isDigit := fun _ hc =>
  Nat.isDigit_of_mem_toDigits (by decide) (by decide) hc

theorem inNumber_toDigits (n : Nat) : ∀ c ∈ Nat.toDigits 10 n, InNumber c := fun c hc =>
  .inl (isDigit_toDigits n c hc)

theorem whole?_toDigits (n : Nat) : whole? (Nat.toDigits 10 n) = some (Nat.toDigits 10 n) := by
  refine whole?_of_digits (isDigit_toDigits n) Nat.toDigits_ne_nil fun d after heq => ?_
  obtain rfl | hn := Nat.eq_zero_or_pos n
  · rw [Nat.toDigits_zero] at heq
    cases heq
  · exact absurd (by rw [heq]; rfl) (Json.toDigits_head n hn)

theorem ofDigits_eq (cs : Chars) : Decimal.ofDigits cs = Nat.ofDigitChars 10 cs 0 := by
  simp only [Decimal.ofDigits, Nat.ofDigitChars, Nat.mul_comm 10]
  rfl

theorem ofDigits_toDigits (n : Nat) : Decimal.ofDigits (Nat.toDigits 10 n) = n := by
  rw [ofDigits_eq, Nat.ofDigitChars_ten_toDigits]

theorem reads_integer (depth : Nat) {n : Int} (hlow : -2 ^ 63 ≤ n) (hhigh : n < 2 ^ 63) :
    Reads depth (.integer n) := by
  refine reads_signed (decide (n < 0)) (Nat.toDigits 10 n.natAbs) ?_
    Nat.toDigits_ne_nil (inNumber_toDigits _) ?_ depth
  · by_cases hn : n < 0 <;> simp [valueText, integerText, digitText, hn]
  · have hroom : n.natAbs < 1 <<< 63 ∨ (decide (n < 0) = true ∧ n.natAbs = 1 <<< 63) := by
      rw [Nat.one_shiftLeft, decide_eq_true_eq]
      omega
    have hsign : (if decide (n < 0) = true then -(n.natAbs : Int) else n.natAbs) = n := by
      split
      · next hn => exact Int.ofNat_natAbs_of_nonpos (of_decide_eq_true hn).le ▸ Int.neg_neg n
      · next hn => exact Int.natAbs_of_nonneg (Int.not_lt.1 fun h => hn (decide_eq_true h))
    rw [unsigned?_digits (inNumber_toDigits _), whole?_toDigits]
    simp only [ofDigits_toDigits, integerOf?, if_pos hroom, hsign]

/-! ## Arrays -/

theorem itemTexts_eq (vs : List Toml) : itemTexts vs = vs.map valueText := by
  induction vs with
  | nil => rfl
  | cons v vs ih => rw [itemTexts, ih, List.map_cons]

/-- The items of an array that has two or more, each on a line that is indented. -/
def itemLines : List Toml → Chars
  | [] => [']']
  | v :: vs => List.replicate 4 ' ' ++ ((valueText v).toList ++ ',' :: '\n' :: itemLines vs)

theorem arrayText_eq (v w : Toml) (vs : List Toml) :
    (arrayText (itemTexts (v :: w :: vs))).toList = '[' :: '\n' :: itemLines (v :: w :: vs) := by
  have hlines (us : List Toml) : (us.map valueText).flatMap
      (fun t => List.replicate 4 ' ' ++ (t.toList ++ [',', '\n'])) ++ [']'] = itemLines us := by
    induction us with
    | nil => rfl
    | cons u us ih => simpa [itemLines] using ih
  simpa [itemTexts_eq, arrayText, List.flatMap_map] using hlines (v :: w :: vs)

/-- The bracket that closes an array opens no item. -/
theorem arrayItems?_value (h : Reads depth v) (fuel : Nat) (rest : Chars) :
    arrayItems? (fuel + 1) depth ((valueText v).toList ++ rest) =
      (value? fuel depth ((valueText v).toList ++ rest)).bind fun r =>
        match skipAll r.2 with
        | ']' :: rest => some ([r.1], rest)
        | ',' :: rest => (arrayItems? fuel depth (skipAll rest)).bind fun t => some (r.1 :: t.1, t.2)
        | _ => none := by
  obtain ⟨c, after, htext, -, hc⟩ := h.starts
  rw [htext, List.cons_append, arrayItems?.eq_def]
  dsimp only
  split
  · next heq => exact absurd (List.cons.inj heq).1 (fun h => hc (by simp [h]))
  · rfl

theorem arrayItems?_itemLines {vs : List Toml} (h : ∀ v ∈ vs, Reads depth v) {fuel : Nat}
    (hfuel : 2 * (itemLines vs).length ≤ fuel) (rest : Chars) :
    arrayItems? fuel depth (skipAll (itemLines vs ++ rest)) = some (vs, rest) := by
  induction vs generalizing fuel with
  | nil =>
    obtain ⟨fuel, rfl⟩ := Nat.exists_eq_add_one_of_ne_zero (Nat.ne_zero_of_lt hfuel)
    rfl
  | cons v vs ih =>
    simp only [itemLines, List.length_append, List.length_cons, List.length_replicate] at hfuel
    obtain ⟨fuel, rfl⟩ := Nat.exists_eq_add_one_of_ne_zero (show fuel ≠ 0 by omega)
    have hv := h v List.mem_cons_self
    have htail : arrayItems? fuel depth (skipAll (itemLines vs ++ rest)) = some (vs, rest) :=
      ih (fun w hw => h w (List.mem_cons_of_mem v hw)) (by omega)
    simp only [itemLines, List.append_assoc, List.cons_append]
    rw [skipAll_indent (hv.starts.append _), arrayItems?_value hv,
      hv.reads fuel _ (by omega) (.comma _)]
    show (arrayItems? fuel depth (skipAll (itemLines vs ++ rest))).bind _ = _
    rw [htail]
    rfl

theorem reads_array {vs : List Toml} (h : ∀ v ∈ vs, Reads (depth + 1) v)
    (hdepth : depth + 1 < depthLimit) : Reads depth (.array vs) := by
  have hopen (fuel : Nat) (cs : Chars) : value? (fuel + 1) depth ('[' :: cs) =
      (arrayItems? fuel (depth + 1) (skipAll cs)).map fun r => (.array r.1, r.2) := by
    show (if depthLimit ≤ depth + 1 then none
      else (arrayItems? fuel (depth + 1) (skipAll cs)).bind fun r => some (array r.1, r.2)) = _
    rw [if_neg (Nat.not_le.2 hdepth)]
    cases arrayItems? fuel (depth + 1) (skipAll cs) <;> rfl
  match vs, h with
  | [], _ =>
    have htext : (valueText (.array [])).toList = ['[', ']'] := rfl
    refine ⟨⟨'[', _, htext, rfl, by decide⟩, fun fuel rest hfuel hends => ?_⟩
    simp only [htext, List.length_cons, List.length_nil] at hfuel
    obtain ⟨fuel, rfl⟩ := Nat.exists_eq_add_of_le' (show 2 ≤ fuel by omega)
    rw [htext]
    exact hopen _ _
  | [v], h =>
    have hv := h v List.mem_cons_self
    have htext : (valueText (.array [v])).toList = '[' :: ((valueText v).toList ++ [']']) := by
      simp [valueText, itemTexts, arrayText]
    refine ⟨⟨'[', _, htext, rfl, by decide⟩, fun fuel rest hfuel hends => ?_⟩
    simp only [htext, List.length_cons, List.length_append, List.length_nil] at hfuel
    obtain ⟨fuel, rfl⟩ := Nat.exists_eq_add_of_le' (show 2 ≤ fuel by omega)
    rw [htext, List.cons_append, hopen, List.append_assoc, (hv.starts.append _).skipAll,
      arrayItems?_value hv, hv.reads fuel ([']'] ++ rest) (by omega) (.bracket rest)]
    rfl
  | v :: w :: vs, h =>
    have htext : (valueText (.array (v :: w :: vs))).toList =
      '[' :: '\n' :: itemLines (v :: w :: vs) := by rw [valueText, arrayText_eq]
    refine ⟨⟨'[', _, htext, rfl, by decide⟩, fun fuel rest hfuel hends => ?_⟩
    rw [htext, List.length_cons, List.length_cons] at hfuel
    obtain ⟨fuel, rfl⟩ := Nat.exists_eq_add_one_of_ne_zero (Nat.ne_zero_of_lt hfuel)
    rw [htext, List.cons_append, hopen]
    show (arrayItems? fuel (depth + 1) (skipAll (itemLines (v :: w :: vs) ++ rest))).map _ = _
    rw [arrayItems?_itemLines h (by omega)]
    rfl

end Toml

end Patchbay
