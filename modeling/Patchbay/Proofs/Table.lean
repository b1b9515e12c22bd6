import Mathlib
import Patchbay.Document.Table

/-!
# Tables and what is found in them

A table is what can be looked up in it: the order of the names leaves no other freedom.
-/

set_option autoImplicit false

namespace Patchbay

/-- By a key that no two entries share a list finds the entry it has. -/
theorem find?_of_distinct {α β : Type} {key : α → β} {l : List α} {q : α → Bool} {a : α}
    (distinct : (l.map key).Nodup) (hq : ∀ b, q b = true ↔ key b = key a) (ha : a ∈ l) :
    l.find? q = some a := by
  cases hf : l.find? q with
  | none => exact absurd ((hq a).2 rfl) (List.find?_eq_none.1 hf a ha)
  | some b =>
    have hkey : key b = key a := (hq b).1 (List.find?_some hf)
    rw [List.inj_on_of_nodup_map distinct (List.mem_of_find?_eq_some hf) ha hkey]

namespace Table

variable {α : Type}

theorem fst_of_find? {es : List (String × α)} {key : String} {e : String × α}
    (h : es.find? (fun e => e.1 = key) = some e) : e.1 = key := by
  simpa using List.find?_some h

theorem mem_entries (d : Table α) (key : String) (value : α) :
    (key, value) ∈ d.entries ↔ d.find? key = some value := by
  obtain ⟨es, sorted⟩ := d
  induction es with
  | nil => simp [find?]
  | cons e es ih =>
    obtain ⟨k, v⟩ := e
    obtain ⟨hk, hes⟩ := List.pairwise_cons.1 sorted
    rcases eq_or_ne k key with rfl | hne
    · have hnot : (k, value) ∉ es := fun he => String.lt_irrefl k (hk (k, value) he)
      simp [find?, hnot, eq_comm]
    · have := ih hes
      simp only [find?] at this
      simp [find?, hne, hne.symm, this]

theorem distinct (d : Table α) : (d.entries.map Prod.fst).Nodup :=
  List.pairwise_map.2 <| d.sorted.imp fun hlt heq => by
    rw [heq] at hlt
    exact String.lt_irrefl _ hlt

theorem ext_find? {d d' : Table α} (h : ∀ key, d.find? key = d'.find? key) : d = d' := by
  have hmem (e : String × α) : e ∈ d.entries ↔ e ∈ d'.entries := by
    rw [mem_entries, mem_entries, h]
  have hnodup (d : Table α) : d.entries.Nodup := d.distinct.of_map
  have heq : d.entries = d'.entries :=
    ((List.perm_ext_iff_of_nodup (hnodup d) (hnodup d')).2 hmem).eq_of_pairwise
      (fun a b _ _ hab hba => absurd hba (String.lt_asymm hab)) d.sorted d'.sorted
  obtain ⟨es, sorted⟩ := d
  obtain ⟨es', sorted'⟩ := d'
  cases heq
  rfl

/-- Entries that are put into a table one after the other are found there, the last under each
key. -/
theorem find?_foldl_insert (es : List (String × α)) (d : Table α) (key : String) :
    (es.foldl (fun d e => d.insert e.1 e.2) d).find? key =
      ((es.reverse.find? fun e => e.1 = key).map Prod.snd).or (d.find? key) := by
  induction es generalizing d with
  | nil => rfl
  | cons e es ih =>
    rw [List.foldl_cons, ih, find?_insert, List.reverse_cons, List.find?_append]
    cases es.reverse.find? fun e => e.1 = key with
    | some v => rfl
    | none => by_cases he : e.1 = key <;> simp [he]

/-- Of several entries under one key a list leaves the last. -/
theorem find?_ofList (es : List (String × α)) (key : String) :
    (ofList es).find? key = (es.reverse.find? fun e => e.1 = key).map Prod.snd := by
  rw [ofList, find?_foldl_insert, find?_empty, Option.or_none]

theorem find?_ofList_of_mem {es : List (String × α)} {key : String}
    (h : key ∈ es.map Prod.fst) :
    ∃ value, (key, value) ∈ es ∧ (ofList es).find? key = some value := by
  obtain ⟨e, he, rfl⟩ := List.mem_map.1 h
  cases hf : es.reverse.find? fun e' => e'.1 = e.1 with
  | none =>
    have := List.find?_eq_none.1 hf e (List.mem_reverse.2 he)
    simp at this
  | some e' =>
    have hkey : e'.1 = e.1 := fst_of_find? hf
    refine ⟨e'.2, ?_, by rw [find?_ofList, hf]; rfl⟩
    rw [← hkey]
    exact List.mem_reverse.1 (List.mem_of_find?_eq_some hf)

theorem mem_of_mem_ofList {es : List (String × α)} {e : String × α}
    (h : e ∈ (ofList es).entries) : e ∈ es := by
  have hfound := (mem_entries _ e.1 e.2).1 h
  rw [find?_ofList] at hfound
  obtain ⟨e', he', hvalue⟩ := Option.map_eq_some_iff.1 hfound
  have hmem := List.mem_reverse.1 (List.mem_of_find?_eq_some he')
  rwa [Prod.ext (fst_of_find? he') hvalue] at hmem

/-- A table is made anew from its entries. -/
theorem ofList_entries (d : Table α) : ofList d.entries = d := by
  refine ext_find? fun key => Option.ext fun value => ⟨fun h => ?_, fun h => ?_⟩
  · exact (mem_entries d key value).1 (mem_of_mem_ofList ((mem_entries _ key value).2 h))
  · have hmem := (mem_entries d key value).2 h
    obtain ⟨w, hw, hfound⟩ := find?_ofList_of_mem (List.mem_map_of_mem hmem)
    have heq : some w = some value := ((mem_entries d key w).1 hw).symm.trans h
    rw [hfound, heq]

theorem find?_filter (d : Table α) (keep : String → Bool) (key : String) :
    (d.filter keep).find? key = if keep key then d.find? key else none := by
  apply Option.ext
  intro value
  rw [← mem_entries, filter, List.mem_filter, mem_entries]
  split
  · next h => simp [h]
  · next h => simp [h]

end Table

end Patchbay
