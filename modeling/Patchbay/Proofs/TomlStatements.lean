import Patchbay.Proofs.TomlRead

/-!
# Lines of a document

A part of a document says some statements if a reader takes these from it and goes on with what
follows, so parts can be put one after the other.
-/

set_option autoImplicit false

namespace Patchbay

namespace Toml

variable {cs rest : Chars}

/-! ## Keys -/

theorem keyText_head (k : String) : ∃ c after, (keyText k).toList = c :: after ∧
    (isBare c ∨ c = '"' ∨ c = '\'') := by
  rw [keyText]
  simp only [Bool.and_eq_true, Bool.not_eq_true']
  split
  · next h =>
    obtain ⟨c, after, heq⟩ := List.exists_cons_of_ne_nil (List.isEmpty_eq_false_iff.1 h.1)
    exact ⟨c, after, heq, .inl (List.all_eq_true.1 h.2 c (heq ▸ List.mem_cons_self))⟩
  · split
    · exact ⟨_, _, basic_toList _, .inr (.inl rfl)⟩
    · split
      · exact ⟨_, _, literal_toList _, .inr (.inr rfl)⟩
      · exact ⟨_, _, basic_toList _, .inr (.inl rfl)⟩

theorem starts_keyText (k : String) :
    Starts (keyText k).toList ∧ (keyText k).toList.head? ≠ some '[' := by
  obtain ⟨c, after, heq, hc⟩ := keyText_head k
  have hnot {d : Char} (hd : isBare d = false ∧ d ≠ '"' ∧ d ≠ '\'') : c ≠ d := by
    rintro rfl
    exact hc.elim (fun h => by simp [hd.1] at h) (Or.elim · hd.2.1 hd.2.2)
  rw [heq]
  refine ⟨⟨c, after, rfl, ?_, ?_⟩, fun h => hnot (by decide) (Option.some_inj.1 h)⟩
  · simp [isBlank, hnot (d := ' ') (by decide), hnot (d := '\t') (by decide)]
  · simp [hnot (d := '#') (by decide), hnot (d := '\n') (by decide),
      hnot (d := '\r') (by decide), hnot (d := ']') (by decide)]

theorem pathText_cons (k l : String) (path : List String) : (pathText (k :: l :: path)).toList =
    (keyText k).toList ++ '.' :: (pathText (l :: path)).toList := by
  simp [pathText, String.intercalate_cons_cons]

/-- The parts of a dotted key are read up to what cannot be a part of it. -/
theorem keyParts?_pathText {path : List String} (hpath : path ≠ []) {fuel : Nat}
    (hfuel : path.length ≤ fuel) (hbare : ∀ c, rest.head? = some c → isBare c = false)
    (hdot : (skipBlank rest).head? ≠ some '.') :
    keyParts? fuel ((pathText path).toList ++ rest) = some (path, skipBlank rest) := by
  induction path generalizing fuel with
  | nil => exact absurd rfl hpath
  | cons k path ih =>
    obtain ⟨fuel, rfl⟩ := Nat.exists_eq_add_of_le' (Nat.le_trans (Nat.le_add_left 1 _) hfuel)
    have hkey := (starts_keyText k).1
    cases path with
    | nil =>
      have htext : (pathText [k]).toList = (keyText k).toList := by simp [pathText]
      rw [htext, keyParts?, (hkey.append rest).skipBlank, simpleKey?_keyText k hbare]
      simp only [Option.bind_eq_bind, Option.bind_some]
      split
      · next heq => exact absurd (by rw [heq]; rfl) hdot
      · rfl
    | cons l path =>
      rw [pathText_cons, List.append_assoc, keyParts?, (hkey.append _).skipBlank,
        simpleKey?_keyText k (by rintro c ⟨⟩; rfl)]
      show (keyParts? fuel ((pathText (l :: path)).toList ++ rest)).bind _ = _
      rw [ih (by simp) (Nat.le_of_succ_le_succ hfuel)]
      rfl

theorem key?_pathText (rest : Chars) (path : List String) (k : String)
    (hpath : path.length + 1 < depthLimit)
    (hbare : ∀ c, rest.head? = some c → isBare c = false)
    (hdot : (skipBlank rest).head? ≠ some '.') :
    key? ((pathText (path ++ [k])).toList ++ rest) = some (path, k, skipBlank rest) := by
  rw [key?, keyParts?_pathText (by simp) (by simp [depthLimit] at hpath ⊢; omega) hbare hdot]
  simp

/-! ## Statements -/

/-- A text that is read as some statements, whatever follows it. -/
structure Says (text : Chars) (ss : List TomlStatement) : Prop where
  size : 2 * ss.length ≤ text.length
  reads : ∀ fuel rest, statements? (ss.length + fuel + 1) (text ++ rest) =
    (statements? (fuel + 1) rest).map (ss ++ ·)

theorem says_nil : Says [] [] := ⟨Nat.le_refl 0, fun fuel rest => by simp⟩

theorem Says.append {a b : Chars} {ss ts : List TomlStatement} (ha : Says a ss) (hb : Says b ts) :
    Says (a ++ b) (ss ++ ts) := by
  constructor
  · have := ha.size
    have := hb.size
    simp only [List.length_append]
    omega
  · intro fuel rest
    rw [List.append_assoc, List.length_append, Nat.add_assoc ss.length, ha.reads, hb.reads]
    simp [Option.map_map, Function.comp_def]

/-- Whole lines that are left out make no difference. -/
theorem statements?_newline (fuel : Nat) (cs : Chars) :
    statements? (fuel + 1) ('\n' :: cs) = statements? (fuel + 1) cs := rfl

theorem says_newline : Says ['\n'] [] :=
  ⟨Nat.zero_le _, fun fuel rest => by simp [statements?_newline]⟩

theorem lineEnd?_starts (h : Starts cs) : lineEnd? cs = none := by
  rw [lineEnd?, h.skipBlank, h.skipComment]
  have hline := h.newline?
  obtain ⟨c, after, rfl, -⟩ := h
  exact hline

/-- Where a line starts, a statement has to follow. -/
theorem statements?_starts (h : Starts cs) (fuel : Nat) : statements? (fuel + 1) cs =
    (statement? cs).bind fun r => (lineEnd? r.2).bind fun rest =>
      (statements? fuel rest).bind fun ss => some (r.1 :: ss) := by
  have hline := lineEnd?_starts h
  rw [statements?, h.skipAll]
  obtain ⟨c, after, rfl, -⟩ := h
  dsimp only
  rw [hline]
  rfl

theorem says_statement {text : Chars} {s : TomlStatement} (hstarts : Starts text)
    (hread : ∀ rest, statement? (text ++ '\n' :: rest) = some (s, '\n' :: rest)) :
    Says (text ++ ['\n']) [s] := by
  constructor
  · obtain ⟨c, after, rfl, -⟩ := hstarts
    simp
  · intro fuel rest
    rw [List.append_assoc, List.singleton_append, List.length_singleton, Nat.add_comm 1,
      statements?_starts (hstarts.append _), hread]
    show (statements? (fuel + 1) rest).bind _ = _
    cases statements? (fuel + 1) rest <;> rfl

/-- Every text that says some statements is read as these. -/
theorem Says.statements?_eq {text : Chars} {ss : List TomlStatement} (h : Says ('\n' :: text) ss) :
    statements? (text.length + 1) text = some ss := by
  have hsize : ss.length ≤ text.length := by
    have := h.size
    rw [List.length_cons] at this
    omega
  obtain ⟨fuel, hfuel⟩ := Nat.exists_eq_add_of_le hsize
  have hread := h.reads fuel []
  rw [List.append_nil, statements?_newline] at hread
  rw [hfuel, hread]
  simp [statements?, skipAll, skipSpace, skipBlank, skipComment, newline?]

/-! ## Lines -/

theorem statement?_value (h : cs.head? ≠ some '[') : statement? cs =
    (key? cs).bind fun r => (expect? '=' r.2.2).bind fun rest =>
      (value? (2 * cs.length + 2) 0 (skipBlank rest)).bind fun t =>
        some (.value r.1 r.2.1 t.1, t.2) := by
  rw [statement?.eq_def]
  split
  · exact absurd rfl h
  · exact absurd rfl h
  · rfl

theorem statement?_openTable (h : cs.head? ≠ some '[') : statement? ('[' :: cs) =
    (key? cs).bind fun r => (expect? ']' r.2.2).bind fun rest =>
      some (.openTable r.1 r.2.1, rest) := by
  rw [statement?.eq_def]
  split
  · next heq =>
    rw [(List.cons.inj heq).2] at h
    exact absurd rfl h
  · next heq =>
    rw [(List.cons.inj heq).2]
    rfl
  · next hno => exact absurd rfl (hno cs)

theorem says_value {v : Toml} (k : String) (h : Reads 0 v) :
    Says (keyText k ++ " = " ++ valueText v ++ "\n").toList [.value [] k v] := by
  obtain ⟨hstarts, hhead⟩ := starts_keyText k
  have htext : (keyText k ++ " = " ++ valueText v ++ "\n").toList =
      (keyText k).toList ++ ' ' :: '=' :: ' ' :: (valueText v).toList ++ ['\n'] := by simp
  rw [htext]
  refine says_statement (hstarts.append _) fun rest => ?_
  let after := (valueText v).toList ++ '\n' :: rest
  have hkey : key? ((keyText k).toList ++ ' ' :: '=' :: ' ' :: after) =
      some ([], k, '=' :: ' ' :: after) :=
    key?_pathText (' ' :: '=' :: ' ' :: after) [] k (by decide) (by rintro c ⟨⟩; rfl)
      (by simp [skipBlank, isBlank])
  have hskip : skipBlank (' ' :: after) = after := (h.starts.append ('\n' :: rest)).skipBlank
  have hcs : (keyText k).toList ++ ' ' :: '=' :: ' ' :: (valueText v).toList ++ '\n' :: rest =
      (keyText k).toList ++ ' ' :: '=' :: ' ' :: after := by simp [after]
  have hfirst : ((keyText k).toList ++ ' ' :: '=' :: ' ' :: after).head? ≠ some '[' := by
    obtain ⟨c, cs, heq, -⟩ := hstarts
    rw [heq] at hhead ⊢
    exact hhead
  rw [hcs, statement?_value hfirst, hkey]
  show (value? _ 0 (skipBlank (' ' :: after))).bind _ = _
  rw [hskip, h.reads _ _ (by simp [after]; omega) (.newline rest)]
  rfl

theorem head?_pathText (path : List String) (k : String) :
    ((pathText (path ++ [k])).toList ++ rest).head? ≠ some '[' := by
  have hhead (k : String) (rest : Chars) : ((keyText k).toList ++ rest).head? ≠ some '[' := by
    obtain ⟨⟨c, after, heq, -⟩, hne⟩ := starts_keyText k
    rw [heq] at hne ⊢
    exact hne
  cases path with
  | nil => exact hhead k rest
  | cons l path =>
    obtain ⟨m, tail, heq⟩ := List.exists_cons_of_ne_nil (List.concat_ne_nil k path)
    rw [List.cons_append, heq, pathText_cons, List.append_assoc]
    exact hhead l _

theorem says_openTable {path : List String} (k : String) (h : path.length + 1 < depthLimit) :
    Says ("[" ++ pathText (path ++ [k]) ++ "]\n").toList [.openTable path k] := by
  have htext : ("[" ++ pathText (path ++ [k]) ++ "]\n").toList =
      '[' :: ((pathText (path ++ [k])).toList ++ [']']) ++ ['\n'] := by simp
  rw [htext]
  refine says_statement ⟨'[', _, rfl, rfl, by decide⟩ fun rest => ?_
  have hkey := key?_pathText (']' :: '\n' :: rest) path k h (by rintro c ⟨⟩; rfl)
    (by simp [skipBlank, isBlank])
  rw [List.cons_append, List.append_assoc, statement?_openTable (head?_pathText path k)]
  show (key? ((pathText (path ++ [k])).toList ++ ']' :: '\n' :: rest)).bind _ = _
  rw [hkey]
  rfl

theorem says_openElement {path : List String} (k : String) (h : path.length + 1 < depthLimit) :
    Says ("[[" ++ pathText (path ++ [k]) ++ "]]\n").toList [.openElement path k] := by
  have htext : ("[[" ++ pathText (path ++ [k]) ++ "]]\n").toList =
      '[' :: '[' :: ((pathText (path ++ [k])).toList ++ [']', ']']) ++ ['\n'] := by simp
  rw [htext]
  refine says_statement ⟨'[', _, rfl, rfl, by decide⟩ fun rest => ?_
  have hkey := key?_pathText (']' :: ']' :: '\n' :: rest) path k h (by rintro c ⟨⟩; rfl)
    (by simp [skipBlank, isBlank])
  rw [List.cons_append, List.cons_append, List.append_assoc]
  show (key? ((pathText (path ++ [k])).toList ++ ']' :: ']' :: '\n' :: rest)).bind _ = _
  rw [hkey]
  rfl

end Toml

end Patchbay
