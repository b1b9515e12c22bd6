import Mathlib
import Patchbay.Proofs.JsonText

/-!
# Values in a text

The pretty form of a value is read back as that value, with whatever follows it left over. A value
has such a form if its strings are complete, its numbers are read back on their own and no fault
stands in the place of a part.
-/

set_option autoImplicit false

namespace Patchbay

namespace Json

mutual

def Plain : Json → Prop
  | null => True
  | bool _ => True
  | number n => readValue 1 (numberText n).toList = (.number n, [])
  | string (.text _) => True
  | string _ => False
  | array items => PlainItems items
  | object members => PlainMembers members
  | broken _ _ => False

def PlainItems : JsonItems → Prop
  | .done none => True
  | .done (some _) => False
  | .item v rest => Plain v ∧ PlainItems rest

def PlainMembers : JsonMembers → Prop
  | .done none => True
  | .done (some _) => False
  | .member (.text _) v rest => Plain v ∧ PlainMembers rest
  | .member _ _ _ => False

end

theorem plain_ofList {vs : List Json} (h : ∀ v ∈ vs, Plain v) : Plain (ofList vs) := by
  induction vs with
  | nil => trivial
  | cons v vs ih => exact ⟨h v (by simp), ih fun w hw => h w (by simp [hw])⟩

theorem plain_ofMembers {ms : List (String × Json)} (h : ∀ m ∈ ms, Plain m.2) :
    Plain (ofMembers ms) := by
  induction ms with
  | nil => trivial
  | cons m ms ih => exact ⟨h m (by simp), ih fun w hw => h w (by simp [hw])⟩

/-! ## Lines -/

theorem toList_pushn (c : Char) (n : Nat) : ("".pushn c n).toList = List.replicate n c := by
  rw [String.pushn_eq_repeat_push]
  induction n with
  | zero => rfl
  | succ n ih => rw [Nat.repeat, String.toList_push, ih, List.replicate_succ']

theorem newline_toList (depth : Nat) :
    (newline depth).toList = '\n' :: List.replicate (2 * depth) ' ' := by
  rw [newline, String.toList_append, toList_pushn]
  rfl

theorem skipBlank_newline (depth : Nat) (cs : List Char) :
    skipBlank ((newline depth).toList ++ cs) = skipBlank cs := by
  have hblank : ∀ c ∈ (newline depth).toList, isBlank c = true := by
    rw [newline_toList]
    intro c hc
    rcases List.mem_cons.1 hc with rfl | hc
    · rfl
    · rw [List.eq_of_mem_replicate hc]
      rfl
  rw [skipBlank, skipBlank, List.dropWhile_append_of_pos hblank]

theorem readValue_newline (fuel depth : Nat) (cs : List Char) :
    readValue (fuel + 1) ((newline depth).toList ++ cs) = readValue (fuel + 1) cs := by
  rw [readValue_skipBlank, skipBlank_newline, ← readValue_skipBlank]

/-- The lines of all items but the first. -/
def moreItems (depth : Nat) : JsonItems → List Char
  | .done _ => []
  | .item v rest =>
    ',' :: ((newline depth).toList ++ ((pretty depth v).toList ++ moreItems depth rest))

def memberLine (depth : Nat) (k : JsonText) (v : Json) : List Char :=
  (newline depth).toList ++ ((textOf k).toList ++ ':' :: ' ' :: (pretty depth v).toList)

def moreMembers (depth : Nat) : JsonMembers → List Char
  | .done _ => []
  | .member k v rest => ',' :: (memberLine depth k v ++ moreMembers depth rest)

theorem prettyItems_item (depth : Nat) (v : Json) : (rest : JsonItems) →
    (prettyItems depth (.item v rest)).toList =
      (newline depth).toList ++ ((pretty depth v).toList ++ moreItems depth rest)
  | .done _ => by simp [prettyItems, moreItems]
  | .item w more => by
    have ih := prettyItems_item depth w more
    simp [prettyItems, moreItems, ih]

theorem prettyMembers_member (depth : Nat) (k : JsonText) (v : Json) : (rest : JsonMembers) →
    (prettyMembers depth (.member k v rest)).toList =
      memberLine depth k v ++ moreMembers depth rest
  | .done _ => by simp [prettyMembers, memberLine, moreMembers]
  | .member k' w more => by
    have ih := prettyMembers_member depth k' w more
    simp [prettyMembers, memberLine, moreMembers] at ih ⊢
    simp [ih]

variable {cs rest : List Char}

theorem delimited_nil : Delimited [] := .inl rfl

theorem delimited_newline (depth : Nat) (cs : List Char) :
    Delimited ((newline depth).toList ++ cs) := by
  rw [newline_toList]
  exact .inr ⟨_, _, rfl, .inr rfl⟩

theorem delimited_items (items : JsonItems) (depth : Nat) (h : Delimited cs) :
    Delimited (moreItems depth items ++ cs) := by
  cases items with
  | done fault => exact h
  | item v rest => exact .inr ⟨_, _, rfl, .inl rfl⟩

theorem delimited_members (members : JsonMembers) (depth : Nat) (h : Delimited cs) :
    Delimited (moreMembers depth members ++ cs) := by
  cases members with
  | done fault => exact h
  | member k v rest => exact .inr ⟨_, _, rfl, .inl rfl⟩

theorem pretty_array (depth : Nat) (v : Json) (items : JsonItems) :
    (pretty depth (.array (.item v items))).toList =
      '[' :: ((newline (depth + 1)).toList ++ ((pretty (depth + 1) v).toList ++
        (moreItems (depth + 1) items ++ ((newline depth).toList ++ [']'])))) := by
  simp [pretty, prettyItems_item]

theorem pretty_object (depth : Nat) (k : JsonText) (v : Json) (members : JsonMembers) :
    (pretty depth (.object (.member k v members))).toList =
      '\x7b' :: (memberLine (depth + 1) k v ++
        (moreMembers (depth + 1) members ++ ((newline depth).toList ++ ['\x7d']))) := by
  simp [pretty, prettyMembers_member]

/-- A number that is read does not start with the bracket that closes an array. -/
theorem number_head {n : JsonNumber} (h : readValue 1 cs = (.number n, [])) :
    ∃ c rest, skipBlank cs = c :: rest ∧ c ≠ ']' := by
  cases hs : skipBlank cs with
  | nil =>
    rw [readValue_skipBlank, hs] at h
    cases h
  | cons c rest =>
    refine ⟨c, rest, rfl, ?_⟩
    rintro rfl
    rw [readValue_skipBlank, hs] at h
    cases h

theorem pretty_head {v : Json} (h : Plain v) (depth : Nat) :
    ∃ c cs, skipBlank (pretty depth v).toList = c :: cs ∧ c ≠ ']' := by
  cases v with
  | null => exact ⟨'n', _, by rw [pretty]; rfl, by decide⟩
  | bool b =>
    rw [pretty]
    cases b with
    | true => exact ⟨'t', _, rfl, by decide⟩
    | false => exact ⟨'f', _, rfl, by decide⟩
  | number n =>
    rw [pretty]
    exact number_head h
  | string s =>
    cases s with
    | text s =>
      rw [pretty, textOf, quote_toList]
      exact ⟨'"', _, rfl, by decide⟩
    | unpaired => cases h
    | broken read skipped => cases h
  | array items =>
    cases items with
    | done fault => exact ⟨'[', _, by rw [pretty]; rfl, by decide⟩
    | item v rest =>
      rw [pretty_array]
      exact ⟨'[', _, rfl, by decide⟩
  | object members =>
    cases members with
    | done fault => exact ⟨'\x7b', _, by rw [pretty]; rfl, by decide⟩
    | member k v rest =>
      rw [pretty_object]
      exact ⟨'\x7b', _, rfl, by decide⟩
  | broken read skipped => cases h

theorem readValue_text (s : String) (fuel : Nat) (rest : List Char) :
    readValue (fuel + 1) ((quote s).toList ++ rest) = (.string (.text s), rest) := by
  have htext := readText_escaped s.toList rest []
  rw [List.reverse_nil, List.nil_append, String.ofList_toList] at htext
  rw [quote_toList, List.cons_append, List.append_assoc, List.singleton_append, readValue.eq_def]
  simp only [skipBlank_of_not (c := '"') rfl, htext]

theorem readItems_item {fuel depth : Nat} {v : Json} (h : Plain v)
    (hv : readValue (fuel + 1) ((pretty depth v).toList ++ cs) = (v, cs)) (depth' : Nat) :
    readItems (fuel + 2) ((newline depth').toList ++ ((pretty depth v).toList ++ cs)) =
      (.item v (readMoreItems (fuel + 1) cs).1, (readMoreItems (fuel + 1) cs).2) := by
  obtain ⟨c, rest, hhead, hc⟩ := pretty_head h depth
  have hs : skipBlank ((pretty depth v).toList ++ cs) = c :: (rest ++ cs) := by
    rw [skipBlank_append (by rw [hhead]; simp), hhead]
    rfl
  rw [readValue_skipBlank, hs] at hv
  rw [readItems.eq_def]
  simp only [skipBlank_newline, hs]
  split
  · next heq => cases heq
  · next heq =>
    cases heq
    exact absurd rfl hc
  · rw [hv]

/-- A member is read from its key on. -/
theorem readMember_line (k : String) {v : Json} {fuel depth : Nat}
    (hv : readValue (fuel + 1) ((pretty depth v).toList ++ cs) = (v, cs)) :
    readMember (fuel + 2) (skipBlank (memberLine depth (.text k) v ++ cs)) =
      (.member (.text k) v (readMoreMembers (fuel + 1) cs).1, (readMoreMembers (fuel + 1) cs).2) := by
  have htext := readText_escaped k.toList (':' :: ' ' :: ((pretty depth v).toList ++ cs)) []
  rw [List.reverse_nil, List.nil_append, String.ofList_toList] at htext
  have hblank : readValue (fuel + 1) (' ' :: ((pretty depth v).toList ++ cs)) = (v, cs) := by
    rw [readValue_skipBlank] at hv ⊢
    exact hv
  rw [memberLine, List.append_assoc, skipBlank_newline, textOf, quote_toList]
  simp only [List.cons_append, List.append_assoc, List.nil_append]
  rw [skipBlank_of_not rfl, readMember]
  simp only [htext, skipBlank_of_not (c := ':') rfl, hblank]

theorem readMembers_line (k : String) (v : Json) (fuel depth : Nat) (cs : List Char) :
    readMembers (fuel + 1) (memberLine depth (.text k) v ++ cs) =
      readMember fuel (skipBlank (memberLine depth (.text k) v ++ cs)) := by
  rw [readMembers.eq_def, memberLine, List.append_assoc, textOf, quote_toList]
  simp only [skipBlank_newline, List.cons_append, skipBlank_of_not (c := '"') rfl]
  rfl

theorem newline_length (depth : Nat) : (newline depth).toList.length = 2 * depth + 1 := by
  rw [newline_toList, List.length_cons, List.length_replicate]

theorem memberLine_length (depth : Nat) (k : JsonText) (v : Json) :
    (pretty depth v).toList.length + 3 ≤ (memberLine depth k v).length := by
  rw [memberLine, List.length_append, List.length_append, List.length_cons, List.length_cons,
    newline_length]
  omega

theorem fuel_of_pretty {v : Json} (h : Plain v) {depth fuel : Nat}
    (hfuel : (pretty depth v).toList.length ≤ fuel) : ∃ k, fuel = k + 1 := by
  obtain ⟨c, cs, hs, -⟩ := pretty_head h depth
  cases fuel with
  | zero =>
    rw [List.eq_nil_of_length_eq_zero (Nat.le_zero.1 hfuel)] at hs
    cases hs
  | succ k => exact ⟨k, rfl⟩

mutual

theorem readValue_pretty : (v : Json) → Plain v → ∀ depth fuel,
    (pretty depth v).toList.length ≤ fuel → ∀ {rest}, Delimited rest →
    readValue fuel ((pretty depth v).toList ++ rest) = (v, rest)
  | null, h => by
    intro depth fuel hfuel rest _
    obtain ⟨k, rfl⟩ := fuel_of_pretty h hfuel
    rw [pretty]
    rfl
  | bool true, h => by
    intro depth fuel hfuel rest _
    obtain ⟨k, rfl⟩ := fuel_of_pretty h hfuel
    rw [pretty]
    rfl
  | bool false, h => by
    intro depth fuel hfuel rest _
    obtain ⟨k, rfl⟩ := fuel_of_pretty h hfuel
    rw [pretty]
    rfl
  | number n, h => by
    intro depth fuel hfuel rest hrest
    obtain ⟨k, rfl⟩ := fuel_of_pretty h hfuel
    rw [pretty]
    exact readValue_append hrest h k
  | string (.text s), h => by
    intro depth fuel hfuel rest _
    obtain ⟨k, rfl⟩ := fuel_of_pretty h hfuel
    rw [pretty, textOf, readValue_text]
  | array (.done none), _ => by
    intro depth fuel hfuel rest _
    rw [pretty] at hfuel ⊢
    obtain ⟨k, rfl⟩ : ∃ k, fuel = k + 2 := ⟨fuel - 2, by simp at hfuel; omega⟩
    rfl
  | array (.item v items), h => by
    intro depth fuel hfuel rest _
    rw [pretty_array] at hfuel ⊢
    simp only [List.length_cons, List.length_append, newline_length] at hfuel
    obtain ⟨k, rfl⟩ : ∃ k, fuel = k + 3 := ⟨fuel - 3, by omega⟩
    have hend := delimited_newline depth (']' :: rest)
    have hv := readValue_pretty v h.1 (depth + 1) (k + 1) (by omega)
      (delimited_items items (depth + 1) hend)
    have hitems := readMoreItems_pretty items h.2 (depth + 1) depth (k + 1) (by omega) rest
    have hread := readItems_item h.1 hv (depth + 1)
    rw [hitems] at hread
    have harray (cs : List Char) : readValue (k + 3) ('[' :: cs) =
        (array (readItems (k + 2) cs).1, (readItems (k + 2) cs).2) := rfl
    simp only [List.cons_append, List.append_assoc, List.nil_append]
    rw [harray, hread]
  | object (.done none), _ => by
    intro depth fuel hfuel rest _
    rw [pretty] at hfuel ⊢
    obtain ⟨k, rfl⟩ : ∃ k, fuel = k + 2 := ⟨fuel - 2, by simp at hfuel; omega⟩
    rfl
  | object (.member (.text k) v members), h => by
    intro depth fuel hfuel rest _
    rw [pretty_object] at hfuel ⊢
    have hline := memberLine_length (depth + 1) (.text k) v
    simp only [List.length_cons, List.length_append, newline_length] at hfuel
    obtain ⟨j, rfl⟩ : ∃ j, fuel = j + 4 := ⟨fuel - 4, by omega⟩
    have hend := delimited_newline depth ('\x7d' :: rest)
    have hv := readValue_pretty v h.1 (depth + 1) (j + 1) (by omega)
      (delimited_members members (depth + 1) hend)
    have hmembers := readMoreMembers_pretty members h.2 (depth + 1) depth (j + 1) (by omega) rest
    have hread := readMember_line k hv
    rw [hmembers, ← readMembers_line] at hread
    have hobject (cs : List Char) : readValue (j + 4) ('\x7b' :: cs) =
        (object (readMembers (j + 3) cs).1, (readMembers (j + 3) cs).2) := rfl
    simp only [List.cons_append, List.append_assoc, List.nil_append]
    rw [hobject, hread]

theorem readMoreItems_pretty (items : JsonItems) (h : PlainItems items) (depth depth' fuel : Nat)
    (hfuel : (moreItems depth items).length + 1 ≤ fuel) (rest : List Char) :
    readMoreItems fuel (moreItems depth items ++ ((newline depth').toList ++ ']' :: rest)) =
      (items, rest) := by
  obtain ⟨fuel, rfl⟩ : ∃ k, fuel = k + 1 := ⟨fuel - 1, by omega⟩
  match items, h with
  | .done none, _ =>
    rw [moreItems, List.nil_append, readMoreItems.eq_def]
    simp only [skipBlank_newline]
    rfl
  | .item v items, h =>
    simp only [moreItems, List.length_cons, List.length_append, newline_length] at hfuel
    obtain ⟨k, rfl⟩ : ∃ k, fuel = k + 1 := ⟨fuel - 1, by omega⟩
    have hend := delimited_newline depth' (']' :: rest)
    have hv := readValue_pretty v h.1 depth (k + 1) (by omega) (delimited_items items depth hend)
    rw [← readValue_newline k depth] at hv
    have hitems := readMoreItems_pretty items h.2 depth depth' (k + 1) (by omega) rest
    have hcomma (cs : List Char) : readMoreItems (k + 2) (',' :: cs) =
        (.item (readValue (k + 1) cs).1 (readMoreItems (k + 1) (readValue (k + 1) cs).2).1,
          (readMoreItems (k + 1) (readValue (k + 1) cs).2).2) := rfl
    simp only [moreItems, List.cons_append, List.append_assoc]
    rw [hcomma, hv, hitems]

theorem readMoreMembers_pretty (members : JsonMembers) (h : PlainMembers members)
    (depth depth' fuel : Nat) (hfuel : (moreMembers depth members).length + 1 ≤ fuel)
    (rest : List Char) :
    readMoreMembers fuel
      (moreMembers depth members ++ ((newline depth').toList ++ '\x7d' :: rest)) =
      (members, rest) := by
  obtain ⟨fuel, rfl⟩ : ∃ k, fuel = k + 1 := ⟨fuel - 1, by omega⟩
  match members, h with
  | .done none, _ =>
    rw [moreMembers, List.nil_append, readMoreMembers.eq_def]
    simp only [skipBlank_newline]
    rfl
  | .member (.text k) v members, h =>
    have hline := memberLine_length depth (.text k) v
    simp only [moreMembers, List.length_cons, List.length_append] at hfuel
    obtain ⟨j, rfl⟩ : ∃ j, fuel = j + 2 := ⟨fuel - 2, by omega⟩
    have hend := delimited_newline depth' ('\x7d' :: rest)
    have hv := readValue_pretty v h.1 depth (j + 1) (by omega) (delimited_members members depth hend)
    have hmembers := readMoreMembers_pretty members h.2 depth depth' (j + 1) (by omega) rest
    have hread := readMember_line k hv
    rw [hmembers] at hread
    have hcomma (cs : List Char) : readMoreMembers (j + 3) (',' :: cs) =
        readMember (j + 2) (skipBlank cs) := rfl
    simp only [moreMembers, List.cons_append, List.append_assoc]
    rw [hcomma, hread]

end

/-- A value is read back from its pretty form, to the end. -/
theorem read_pretty {v : Json} (h : Plain v) : read (pretty 0 v) = (v, true) := by
  have hv := readValue_pretty v h 0 (3 * (pretty 0 v).toList.length + 3) (by omega) delimited_nil
  rw [List.append_nil] at hv
  rw [read]
  simp only [hv]
  rfl

end Json

end Patchbay
