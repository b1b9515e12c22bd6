import Mathlib.Data.List.Basic
import Mathlib.Data.List.TakeWhile
import Mathlib.Tactic.Common
import Patchbay.Toml.Reader
import Patchbay.Toml.Writer

/-!
# Strings and keys in a document

A text is read back as it was, whatever it holds and however it is quoted. What is inside a string
of several lines is a body: characters as they are or escaped, with at most two quotes in a row, so
that the three that close it cannot be taken for a part of it.
-/

set_option autoImplicit false

namespace Patchbay

namespace Toml

variable {c q : Char} {cs done rest : Chars}

/-- What a reader of a run of characters takes and leaves. -/
theorem span_append (rest : Chars) {p : Char → Bool} (inside : ∀ c ∈ cs, p c)
    (stops : ∀ c, rest.head? = some c → p c = false) :
    (cs ++ rest).takeWhile p = cs ∧ (cs ++ rest).dropWhile p = rest := by
  rw [List.takeWhile_append_of_pos inside, List.dropWhile_append_of_pos inside]
  cases rest with
  | nil => simp
  | cons c rest => simp [stops c rfl]

/-! ## Escapes -/

theorem mapM_hexValue? : ∀ n < 128,
    ['0', '0', hexDigit (n / 16), hexDigit (n % 16)].mapM Json.hexValue? =
      some [0, 0, n / 16, n % 16] := by
  decide

theorem isControl_iff : isControl c ↔ c.toNat < 32 ∨ c.toNat = 127 := by
  have hdelete : c = '\x7f' ↔ c.toNat = 127 := ⟨fun h => h ▸ rfl, fun h => Char.toNat_inj.1 h⟩
  rw [isControl, Bool.or_eq_true, decide_eq_true_eq, decide_eq_true_eq, hdelete]
  exact Iff.rfl

theorem isPrintable_iff : isPrintable c ↔ c = '\t' ∨ ¬ isControl c := by
  have hspace : ' ' ≤ c ↔ ¬ c < ' ' := Char.not_lt.symm
  simp only [isPrintable, isControl, Bool.or_eq_true, Bool.and_eq_true, decide_eq_true_eq, not_or,
    hspace]

theorem hexChar?_control (h : isControl c) (rest : Chars) :
    hexChar? 4 ('0' :: '0' :: hexDigit (c.toNat / 16) :: hexDigit (c.toNat % 16) :: rest) =
      some (c, rest) := by
  have hn : c.toNat < 128 := by
    have := isControl_iff.1 h
    omega
  have hvalue : ((0 * 16 + 0) * 16 + c.toNat / 16) * 16 + c.toNat % 16 = c.toNat := by omega
  have hvalid : (['0', '0', hexDigit (c.toNat / 16), hexDigit (c.toNat % 16)].length = 4 ∧
    c.toNat.isValidChar) := ⟨rfl, .inl (by omega)⟩
  simp only [hexChar?, List.take_succ_cons, List.take_zero, mapM_hexValue? _ hn,
    Option.bind_eq_bind, Option.bind_some, List.foldl_cons, List.foldl_nil, Nat.zero_mul,
    Nat.zero_add] at hvalue ⊢
  rw [hvalue, if_pos hvalid, Char.ofNat_toNat]
  rfl

/-- Whether a character stands for itself. -/
def Shown (lines : Bool) (c : Char) : Prop :=
  c ≠ '\\' ∧ (isPrintable c ∨ lines ∧ c = '\n')

/-- An escape is read as the character it stands for, and is not a line end that is left out. -/
def Escapes (tail : Chars) (c : Char) : Prop :=
  ∀ rest, escape? (tail ++ rest) = some (c, rest) ∧ newline? (skipBlank (tail ++ rest)) = none

theorem escapeChar_cases (lines : Bool) (c : Char) :
    escapeChar lines c = [c] ∧ Shown lines c ∨
      ∃ tail, escapeChar lines c = '\\' :: tail ∧ Escapes tail c := by
  unfold escapeChar
  split
  · exact .inr ⟨['b'], rfl, fun _ => ⟨rfl, rfl⟩⟩
  · exact .inr ⟨['t'], rfl, fun _ => ⟨rfl, rfl⟩⟩
  · cases lines with
    | true => exact .inl ⟨rfl, by decide, .inr ⟨rfl, rfl⟩⟩
    | false => exact .inr ⟨['n'], rfl, fun _ => ⟨rfl, rfl⟩⟩
  · exact .inr ⟨['f'], rfl, fun _ => ⟨rfl, rfl⟩⟩
  · exact .inr ⟨['r'], rfl, fun _ => ⟨rfl, rfl⟩⟩
  · exact .inr ⟨['\\'], rfl, fun _ => ⟨rfl, rfl⟩⟩
  · next hslash _ =>
    split
    · next hcontrol =>
      exact .inr ⟨_, rfl, fun rest => ⟨hexChar?_control hcontrol rest, rfl⟩⟩
    · next hcontrol =>
      exact .inl ⟨rfl, by assumption, .inl (isPrintable_iff.2 (.inr hcontrol))⟩

/-! ## Strings on one line -/

theorem basic?_escapeChar (hc : c ≠ '"') (fuel : Nat) :
    basic? (fuel + 1) done (escapeChar false c ++ rest) = basic? fuel (c :: done) rest := by
  obtain ⟨heq, hslash, hshown⟩ | ⟨tail, heq, hescape⟩ := escapeChar_cases false c
  · have hprint : isPrintable c := hshown.resolve_right fun h => Bool.false_ne_true h.1
    rw [heq, List.singleton_append, basic?, if_neg hc, if_neg hslash, if_pos hprint]
  · rw [heq, List.cons_append, basic?, if_neg (by decide), if_pos rfl, (hescape rest).1]
    rfl

theorem basic?_escape {fuel : Nat} (run : Nat) (h : cs.length < fuel) :
    basic? fuel done (escape false 0 run cs ++ '"' :: rest) =
      some (finish (cs.reverse ++ done) rest) := by
  induction cs generalizing fuel run done with
  | nil =>
    obtain ⟨fuel, rfl⟩ := Nat.exists_eq_add_one_of_ne_zero (Nat.ne_zero_of_lt h)
    rfl
  | cons c cs ih =>
    obtain ⟨fuel, rfl⟩ := Nat.exists_eq_add_one_of_ne_zero (Nat.ne_zero_of_lt h)
    have hfuel : cs.length < fuel := Nat.lt_of_succ_lt_succ h
    rw [List.reverse_cons, List.append_assoc, List.singleton_append, ← ih 0 hfuel, escape]
    split
    · next hc =>
      rw [if_neg (Nat.not_lt_zero run), hc]
      rfl
    · next hc => rw [List.append_assoc, basic?_escapeChar hc]

theorem length_le_escape (lines : Bool) (quotes run : Nat) (cs : Chars) :
    cs.length ≤ (escape lines quotes run cs).length := by
  induction cs generalizing run with
  | nil => exact Nat.le_refl 0
  | cons c cs ih =>
    have hshown : 1 ≤ (escapeChar lines c).length := by
      obtain ⟨heq, -⟩ | ⟨tail, heq, -⟩ := escapeChar_cases lines c <;> simp [heq]
    have h₁ := ih (run + 1)
    have h₀ := ih 0
    rw [escape]
    split
    · split <;> simp only [List.length_cons] <;> omega
    · simp only [List.length_cons, List.length_append]
      omega

/-- A text in double quotes after the first of them. -/
theorem basic?_basic (cs rest : Chars) :
    basic? ((escape false 0 0 cs ++ '"' :: rest).length + 1) [] (escape false 0 0 cs ++ '"' :: rest)
      = some (String.ofList cs, rest) := by
  have hlength := length_le_escape false 0 0 cs
  rw [basic?_escape 0 (by simp only [List.length_append, List.length_cons]; omega), finish]
  simp

theorem literal?_append (h : ∀ c ∈ cs, c ≠ '\'' ∧ isPrintable c) :
    literal? done (cs ++ '\'' :: rest) = some (finish (cs.reverse ++ done) rest) := by
  induction cs generalizing done with
  | nil => rfl
  | cons c cs ih =>
    obtain ⟨hquote, hprint⟩ := h c List.mem_cons_self
    rw [List.cons_append, literal?, if_neg hquote, if_pos hprint,
      ih fun d hd => h d (List.mem_cons_of_mem c hd)]
    simp

/-! ## Strings of several lines -/

/-- What stands between the delimiters for a text. The first number is how many quotes come right
before it. -/
inductive Body (q : Char) : Nat → Chars → Chars → Prop
  | done (run : Nat) : Body q run [] []
  | quote {run : Nat} {b cs : Chars} (short : run < 2) (h : Body q (run + 1) b cs) :
    Body q run (q :: b) (q :: cs)
  | other {run : Nat} {c d : Char} {w b cs : Chars} (starts : d ≠ q)
    (reads : ∀ fuel done rest,
      lines? q (fuel + 1) done (d :: w ++ rest) = lines? q fuel (c :: done) rest)
    (h : Body q 0 b cs) : Body q run (d :: w ++ b) (c :: cs)

def closing (q : Char) : Chars := [q, q, q]

/-- Either there is nothing but quotes in a body, or they are too few at its front to close it. -/
theorem Body.quotes {run : Nat} {b : Chars} (h : Body q run b cs) (hrun : run ≤ 2) (rest : Chars) :
    (∃ n ≤ 2 - run, b = List.replicate n q ∧ cs = List.replicate n q) ∨
      ((b ++ rest).takeWhile (· = q)).length ≤ 2 - run := by
  induction h with
  | done run => exact .inl ⟨0, Nat.zero_le _, rfl, rfl⟩
  | quote short h ih =>
    rcases ih short with ⟨n, hn, rfl, rfl⟩ | hle
    · exact .inl ⟨n + 1, by omega, rfl, rfl⟩
    · refine .inr ?_
      simp only [List.cons_append, List.takeWhile_cons, decide_true, if_true, List.length_cons]
      omega
  | other starts reads h ih => exact .inr (by simp [starts])

/-- What closes a string, with up to two quotes in front that belong to it. -/
theorem lines?_closing {n : Nat} (hn : n ≤ 2) (hrest : rest.head? ≠ some q) (fuel : Nat) :
    lines? q (fuel + 1) done (List.replicate n q ++ (closing q ++ rest)) =
      some (finish (List.replicate n q ++ done) rest) := by
  have htext : List.replicate n q ++ (closing q ++ rest) = List.replicate (n + 3) q ++ rest := by
    rw [List.replicate_add, List.append_assoc]
    rfl
  have hrun : quoteRun q (List.replicate (n + 3) q ++ rest) = n + 3 := by
    rw [quoteRun, (span_append rest (by simp) fun c hc => ?_).1, List.length_replicate]
    · omega
    · exact decide_eq_false fun h => hrest (h ▸ hc)
  rw [htext, List.replicate_succ, List.cons_append, lines?, if_pos rfl]
  simp only [← List.cons_append, ← List.replicate_succ, hrun]
  rw [if_pos (by omega), List.drop_left' (by simp), Nat.add_sub_cancel]

theorem lines?_body {run : Nat} {b : Chars} (h : Body q run b cs) (hrun : run ≤ 2)
    (hrest : rest.head? ≠ some q) {fuel : Nat} (hfuel : cs.length < fuel) :
    lines? q fuel done (b ++ (closing q ++ rest)) = some (finish (cs.reverse ++ done) rest) := by
  obtain ⟨fuel, rfl⟩ := Nat.exists_eq_add_one_of_ne_zero (Nat.ne_zero_of_lt hfuel)
  induction h generalizing fuel done with
  | done run => exact lines?_closing (Nat.zero_le 2) hrest fuel
  | @quote run b cs short h ih =>
    rcases (Body.quote short h).quotes hrun (closing q ++ rest) with ⟨n, hn, hb, hcs⟩ | hle
    · rw [hb, hcs, lines?_closing (by omega) hrest, List.reverse_replicate]
    · have hfew : ¬ 3 ≤ quoteRun q (q :: b ++ (closing q ++ rest)) := by
        rw [quoteRun]
        omega
      obtain ⟨fuel, rfl⟩ := Nat.exists_eq_add_one_of_ne_zero
        (Nat.ne_zero_of_lt (Nat.lt_of_succ_lt_succ hfuel))
      rw [List.cons_append] at hfew ⊢
      rw [lines?, if_pos rfl]
      simp only [if_neg hfew]
      rw [ih short fuel (Nat.lt_of_succ_lt_succ hfuel)]
      simp
  | @other run c d w b cs starts reads h ih =>
    obtain ⟨fuel, rfl⟩ := Nat.exists_eq_add_one_of_ne_zero
      (Nat.ne_zero_of_lt (Nat.lt_of_succ_lt_succ hfuel))
    rw [List.append_assoc, reads, ih (Nat.zero_le 2) fuel (Nat.lt_of_succ_lt_succ hfuel)]
    simp

/-! ## The two kinds of bodies -/

theorem newline?_printable (h : isPrintable c) : newline? (c :: rest) = none := by
  have hline : c ≠ '\n' := by rintro rfl; exact absurd h (by decide)
  have hreturn : c ≠ '\r' := by rintro rfl; exact absurd h (by decide)
  rw [newline?.eq_def]
  split <;> simp_all

theorem lines?_shown (hq : c ≠ q) (hslash : c ≠ '\\' ∨ q ≠ '"')
    (hshown : isPrintable c ∨ c = '\n') (fuel : Nat) :
    lines? q (fuel + 1) done (c :: rest) = lines? q fuel (c :: done) rest := by
  have hplain : ¬ (c = '\\' ∧ q = '"') := fun h => hslash.elim (· h.1) (· h.2)
  rw [lines?, if_neg hq, if_neg hplain]
  by_cases hline : c = '\n'
  · rw [hline]
    rfl
  · have hprint := hshown.resolve_right hline
    rw [newline?_printable hprint]
    exact if_pos hprint

/-- An escaped text, with at most two quotes in a row as they are. -/
theorem body_escape (cs : Chars) (run : Nat) : Body '"' run (escape true 2 run cs) cs := by
  induction cs generalizing run with
  | nil => exact .done run
  | cons c cs ih =>
    rw [escape]
    split
    · next hc =>
      subst hc
      split
      · next hrun => exact .quote hrun (ih _)
      · exact .other (w := ['"']) (by decide) (fun _ _ _ => rfl) (ih 0)
    · next hc =>
      obtain ⟨heq, hslash, hshown⟩ | ⟨tail, heq, hescape⟩ := escapeChar_cases true c
      · rw [heq]
        exact .other (w := []) hc (fun fuel done rest => lines?_shown hc (.inl hslash)
          (hshown.imp_right And.right) fuel) (ih 0)
      · rw [heq]
        refine .other (by decide) (fun fuel done rest => ?_) (ih 0)
        obtain ⟨hread, hline⟩ := hescape rest
        rw [List.cons_append, lines?, if_neg (by decide), if_pos ⟨rfl, rfl⟩, hline, hread]
        rfl

/-- At most two quotes in a row, the first number of them already past. -/
def FewQuotes (q : Char) : Nat → Chars → Prop
  | _, [] => True
  | run, c :: cs => if c = q then run < 2 ∧ FewQuotes q (run + 1) cs else FewQuotes q 0 cs

/-- A text in single quotes, as it is. -/
theorem body_literal (h : ∀ c ∈ cs, isPrintable c ∨ c = '\n') {run : Nat}
    (hfew : FewQuotes '\'' run cs) : Body '\'' run cs cs := by
  induction cs generalizing run with
  | nil => exact .done run
  | cons c cs ih =>
    have htail : ∀ d ∈ cs, isPrintable d ∨ d = '\n' := fun d hd => h d (List.mem_cons_of_mem c hd)
    rw [FewQuotes] at hfew
    split at hfew
    · next hc =>
      subst hc
      exact .quote hfew.1 (ih htail hfew.2)
    · next hc =>
      exact .other (w := []) hc (fun fuel done rest => lines?_shown hc (.inr (by decide))
        (h c List.mem_cons_self) fuel) (ih htail hfew)

theorem Body.length_le {run : Nat} {b : Chars} (h : Body q run b cs) : cs.length ≤ b.length := by
  induction h with
  | done run => exact Nat.le_refl 0
  | quote short h ih => exact Nat.succ_le_succ ih
  | other starts reads h ih =>
    simp only [List.length_cons, List.length_append, List.cons_append]
    omega

/-- A line end in front of a body is dropped, and one has to be there if the body starts with a
line end of its own. -/
theorem linesFrom?_body {b first : Chars} (h : Body q 0 b cs) (hrest : rest.head? ≠ some q)
    (hfirst : first = ['\n'] ∨ first = [] ∧ newline? (b ++ (closing q ++ rest)) = none) :
    linesFrom? q (first ++ (b ++ (closing q ++ rest))) = some (String.ofList cs, rest) := by
  have hstart : (newline? (first ++ (b ++ (closing q ++ rest)))).getD
      (first ++ (b ++ (closing q ++ rest))) = b ++ (closing q ++ rest) := by
    rcases hfirst with rfl | ⟨rfl, hnone⟩
    · rfl
    · rw [List.nil_append, hnone]
      rfl
  have hlength := h.length_le
  rw [linesFrom?, hstart, lines?_body h (Nat.zero_le 2) hrest (by simp; omega), finish]
  simp

/-! ## The shape of a text -/

/-- The runs of a character counted on, from one that is still open. -/
def countRuns (q : Char) (state : Nat × Nat) (d : Char) : Nat × Nat :=
  let run := if d = q then state.1 + 1 else 0
  (run, max state.2 run)

theorem longestRun_eq (q : Char) (cs : Chars) :
    longestRun q cs = (cs.foldl (countRuns q) (0, 0)).2 := rfl

theorem le_foldl_countRuns (q : Char) (cs : Chars) (state : Nat × Nat) :
    state.2 ≤ (cs.foldl (countRuns q) state).2 := by
  induction cs generalizing state with
  | nil => exact Nat.le_refl _
  | cons c cs ih => exact Nat.le_trans (Nat.le_max_left _ _) (ih (countRuns q state c))

theorem fewQuotes_of_foldl {run longest : Nat}
    (h : (cs.foldl (countRuns q) (run, longest)).2 < 3) : FewQuotes q run cs := by
  induction cs generalizing run longest with
  | nil => trivial
  | cons c cs ih =>
    rw [List.foldl_cons, countRuns] at h
    rw [FewQuotes]
    split
    · next hc =>
      simp only [if_pos hc] at h
      have := le_foldl_countRuns q cs (run + 1, max longest (run + 1))
      exact ⟨by simp only at this; omega, ih h⟩
    · next hc =>
      simp only [if_neg hc] at h
      exact ih h

theorem fewQuotes_of_longestRun (h : longestRun q cs < 3) : FewQuotes q 0 cs :=
  fewQuotes_of_foldl h

theorem notMem_of_longestRun (h : longestRun q cs = 0) : q ∉ cs := by
  rintro hmem
  obtain ⟨before, after, rfl⟩ := List.append_of_mem hmem
  rw [longestRun_eq, List.foldl_append, List.foldl_cons] at h
  have := le_foldl_countRuns q after (countRuns q (before.foldl (countRuns q) (0, 0)) q)
  simp only [countRuns, if_true] at this h
  omega

theorem printable_of_shape (h : (TextShape.of cs).controls = false) :
    ∀ c ∈ cs, isPrintable c ∨ c = '\n' := by
  intro c hc
  have := List.any_eq_false.1 h c hc
  rw [isPrintable_iff]
  simp only [Bool.and_eq_true, decide_eq_true_eq, not_and, not_not] at this
  by_cases hcontrol : isControl c
  · by_cases htab : c = '\t'
    · exact .inl (.inl htab)
    · exact .inr (this ⟨hcontrol, htab⟩)
  · exact .inl (.inr hcontrol)

theorem newline_notMem_of_shape (h : (TextShape.of cs).newline = false) : '\n' ∉ cs :=
  fun hmem => Bool.eq_false_iff.1 h (List.contains_iff_mem.2 hmem)

/-! ## Strings as they are written -/

theorem basic_toList (cs : Chars) : (basic cs).toList = '"' :: (escape false 0 0 cs ++ ['"']) := by
  simp [basic]

theorem literal_toList (cs : Chars) : (literal cs).toList = '\'' :: (cs ++ ['\'']) := by
  simp [literal]

theorem firstLine_cases (shape : TextShape) :
    shape.newline ∧ (firstLine shape).toList = ['\n'] ∨
      shape.newline = false ∧ (firstLine shape).toList = [] := by
  cases h : shape.newline <;> simp [firstLine, h]

theorem basicLines_toList (shape : TextShape) (cs : Chars) : (basicLines shape cs).toList =
    closing '"' ++ ((firstLine shape).toList ++ (escape true 2 0 cs ++ closing '"')) := by
  simp [basicLines, closing]

theorem literalLines_toList (shape : TextShape) (cs : Chars) : (literalLines shape cs).toList =
    closing '\'' ++ ((firstLine shape).toList ++ (cs ++ closing '\'')) := by
  simp [literalLines, closing]

theorem newline?_escape (h : ∀ c ∈ cs, isPrintable c) (run : Nat) :
    newline? (escape true 2 run cs ++ (closing '"' ++ rest)) = none := by
  cases cs with
  | nil => rfl
  | cons c cs =>
    rw [escape]
    split
    · next hc =>
      subst hc
      split <;> rfl
    · obtain ⟨heq, -⟩ | ⟨tail, heq, -⟩ := escapeChar_cases true c
      · rw [heq]
        exact newline?_printable (h c List.mem_cons_self)
      · rw [heq]
        rfl

theorem newline?_literal (h : ∀ c ∈ cs, isPrintable c) :
    newline? (cs ++ (closing '\'' ++ rest)) = none := by
  cases cs with
  | nil => rfl
  | cons c cs => exact newline?_printable (h c List.mem_cons_self)

theorem string?_basicLines {shape : TextShape} (h : shape.newline ∨ ∀ c ∈ cs, isPrintable c)
    (hrest : rest.head? ≠ some '"') :
    string? ((basicLines shape cs).toList ++ rest) = some (String.ofList cs, rest) := by
  rw [basicLines_toList]
  simp only [List.append_assoc]
  refine linesFrom?_body (body_escape cs 0) hrest ?_
  rcases firstLine_cases shape with ⟨-, hfirst⟩ | ⟨hline, hfirst⟩
  · exact .inl hfirst
  · refine .inr ⟨hfirst, newline?_escape (h.resolve_left ?_) 0⟩
    rw [hline]
    exact Bool.false_ne_true

theorem string?_literalLines {shape : TextShape} (h : shape.newline ∨ ∀ c ∈ cs, isPrintable c)
    (hshown : ∀ c ∈ cs, isPrintable c ∨ c = '\n') (hfew : FewQuotes '\'' 0 cs)
    (hrest : rest.head? ≠ some '\'') :
    string? ((literalLines shape cs).toList ++ rest) = some (String.ofList cs, rest) := by
  rw [literalLines_toList]
  simp only [List.append_assoc]
  refine linesFrom?_body (body_literal hshown hfew) hrest ?_
  rcases firstLine_cases shape with ⟨-, hfirst⟩ | ⟨hline, hfirst⟩
  · exact .inl hfirst
  · refine .inr ⟨hfirst, newline?_literal (h.resolve_left ?_)⟩
    rw [hline]
    exact Bool.false_ne_true

theorem string?_double (h : ∀ after, cs ≠ '"' :: '"' :: after) :
    string? ('"' :: cs) = basic? (cs.length + 1) [] cs := by
  rw [string?.eq_def]
  split <;> simp_all

theorem string?_single (h : ∀ after, cs ≠ '\'' :: '\'' :: after) :
    string? ('\'' :: cs) = literal? [] cs := by
  rw [string?.eq_def]
  split <;> simp_all

theorem escape_starts (cs : Chars) (hrest : rest.head? ≠ some '"') (after : Chars) :
    escape false 0 0 cs ++ '"' :: rest ≠ '"' :: '"' :: after := by
  cases cs with
  | nil =>
    rintro heq
    rw [(List.cons.inj heq).2] at hrest
    exact hrest rfl
  | cons c cs =>
    rw [escape]
    split
    · exact fun heq => absurd (List.cons.inj heq).1 (by decide)
    · next hc =>
      obtain ⟨heq, -⟩ | ⟨tail, heq, -⟩ := escapeChar_cases false c
      · rw [heq]
        exact fun heq => hc (List.cons.inj heq).1
      · rw [heq]
        exact fun heq => absurd (List.cons.inj heq).1 (by decide)

theorem string?_basic (cs : Chars) (hrest : rest.head? ≠ some '"') :
    string? ((basic cs).toList ++ rest) = some (String.ofList cs, rest) := by
  have htext : (basic cs).toList ++ rest = '"' :: (escape false 0 0 cs ++ '"' :: rest) := by
    simp [basic_toList]
  rw [htext, string?_double (escape_starts cs hrest), basic?_basic]

theorem literal?_literal (h : ∀ c ∈ cs, c ≠ '\'' ∧ isPrintable c) :
    literal? [] (cs ++ '\'' :: rest) = some (String.ofList cs, rest) := by
  rw [literal?_append h, finish]
  simp

theorem string?_literal (h : ∀ c ∈ cs, c ≠ '\'' ∧ isPrintable c) (hrest : rest.head? ≠ some '\'') :
    string? ((literal cs).toList ++ rest) = some (String.ofList cs, rest) := by
  have htext : (literal cs).toList ++ rest = '\'' :: (cs ++ '\'' :: rest) := by
    simp [literal_toList]
  have hstart : ∀ after, cs ++ '\'' :: rest ≠ '\'' :: '\'' :: after := by
    rintro after heq
    cases cs with
    | nil =>
      rw [(List.cons.inj heq).2] at hrest
      exact hrest rfl
    | cons c cs => exact (h c List.mem_cons_self).1 (List.cons.inj heq).1
  rw [htext, string?_single hstart, literal?_literal h]

/-- What the shape says of a text that is written in single quotes on one line. -/
theorem literal_of_shape (hcontrols : (TextShape.of cs).controls = false)
    (hquotes : (TextShape.of cs).singleRun = 0) (hline : (TextShape.of cs).newline = false) :
    ∀ c ∈ cs, c ≠ '\'' ∧ isPrintable c := fun c hc =>
  ⟨ne_of_mem_of_not_mem hc (notMem_of_longestRun hquotes),
    (printable_of_shape hcontrols c hc).resolve_right
      (ne_of_mem_of_not_mem hc (newline_notMem_of_shape hline))⟩

theorem lines_of_shape (hcontrols : (TextShape.of cs).controls = false) :
    (TextShape.of cs).newline ∨ ∀ c ∈ cs, isPrintable c := by
  by_cases hline : (TextShape.of cs).newline
  · exact .inl hline
  · exact .inr fun c hc => (printable_of_shape hcontrols c hc).resolve_right
      (ne_of_mem_of_not_mem hc (newline_notMem_of_shape (eq_false_of_ne_true hline)))

/-- Every text is read back from the way it is written. -/
theorem string?_quote (s : String) (hdouble : rest.head? ≠ some '"')
    (hsingle : rest.head? ≠ some '\'') : string? ((quote s).toList ++ rest) = some (s, rest) := by
  rw [← String.ofList_toList (s := s), quote]
  simp only [String.toList_ofList, Bool.and_eq_true, Bool.not_eq_true', decide_eq_true_eq]
  split
  · exact string?_basic s.toList hdouble
  · split
    · next h => exact string?_literal (literal_of_shape h.1.1 h.1.2 h.2) hsingle
    · split
      · next h => exact string?_basicLines (lines_of_shape h.1.1) hdouble
      · split
        · next h =>
          exact string?_literalLines (lines_of_shape h.1) (printable_of_shape h.1)
            (fewQuotes_of_longestRun h.2) hsingle
        · split
          · next h => exact string?_basicLines (.inl h) hdouble
          · exact string?_basic s.toList hdouble

/-! ## Keys -/

theorem simpleKey?_basic (cs rest : Chars) :
    simpleKey? ((basic cs).toList ++ rest) = some (String.ofList cs, rest) := by
  have htext : (basic cs).toList ++ rest = '"' :: (escape false 0 0 cs ++ '"' :: rest) := by
    simp [basic_toList]
  rw [htext]
  exact basic?_basic cs rest

theorem simpleKey?_literal (h : ∀ c ∈ cs, c ≠ '\'' ∧ isPrintable c) :
    simpleKey? ((literal cs).toList ++ rest) = some (String.ofList cs, rest) := by
  have htext : (literal cs).toList ++ rest = '\'' :: (cs ++ '\'' :: rest) := by
    simp [literal_toList]
  rw [htext]
  exact literal?_literal h

theorem simpleKey?_bare (hcs : cs ≠ []) (h : ∀ c ∈ cs, isBare c)
    (hrest : ∀ c, rest.head? = some c → isBare c = false) :
    simpleKey? (cs ++ rest) = some (String.ofList cs, rest) := by
  obtain ⟨htake, hdrop⟩ := span_append rest h hrest
  obtain ⟨c, cs, rfl⟩ := List.exists_cons_of_ne_nil hcs
  have hbare := h c List.mem_cons_self
  rw [simpleKey?.eq_def]
  split
  · next heq =>
    rw [(List.cons.inj heq).1] at hbare
    cases hbare
  · next heq =>
    rw [(List.cons.inj heq).1] at hbare
    cases hbare
  · rw [htake, hdrop]
    rfl

/-- Every key is read back, if what follows it cannot be a part of it. -/
theorem simpleKey?_keyText (s : String) (hrest : ∀ c, rest.head? = some c → isBare c = false) :
    simpleKey? ((keyText s).toList ++ rest) = some (s, rest) := by
  rw [← String.ofList_toList (s := s), keyText]
  simp only [String.toList_ofList, Bool.and_eq_true, Bool.not_eq_true', decide_eq_true_eq]
  split
  · next h =>
    rw [String.toList_ofList]
    exact simpleKey?_bare (List.isEmpty_eq_false_iff.1 h.1) (List.all_eq_true.1 h.2) hrest
  · split
    · exact simpleKey?_basic s.toList rest
    · split
      · next h => exact simpleKey?_literal (literal_of_shape h.1.1 h.1.2 h.2)
      · exact simpleKey?_basic s.toList rest

end Toml

end Patchbay
