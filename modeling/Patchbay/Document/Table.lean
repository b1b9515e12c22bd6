/-!
# Tables

A map from names to values, in the order of the names. The order is part of the type, so two
tables with the same entries are equal.
-/

set_option autoImplicit false

namespace Patchbay

structure Table (α : Type) where
  entries : List (String × α)
  sorted : entries.Pairwise fun a b => a.1 < b.1

namespace Table

variable {α : Type}

def empty : Table α := ⟨[], .nil⟩

def find? (d : Table α) (key : String) : Option α :=
  (d.entries.find? fun e => e.1 = key).map Prod.snd

def insertEntry (key : String) (value : α) : List (String × α) → List (String × α)
  | [] => [(key, value)]
  | (k, v) :: rest =>
    if key < k then (key, value) :: (k, v) :: rest
    else if k < key then (k, v) :: insertEntry key value rest
    else (key, value) :: rest

theorem fst_of_mem_insertEntry {key : String} {value : α} {es : List (String × α)}
    {e : String × α} (h : e ∈ insertEntry key value es) :
    e.1 = key ∨ ∃ e' ∈ es, e'.1 = e.1 := by
  induction es with
  | nil => simp [insertEntry] at h; simp [h]
  | cons head rest ih =>
    obtain ⟨k, v⟩ := head
    simp only [insertEntry] at h
    split at h
    · simp only [List.mem_cons] at h
      rcases h with rfl | h | h
      · exact .inl rfl
      · exact .inr ⟨(k, v), by simp, by rw [h]⟩
      · exact .inr ⟨e, by simp [h], rfl⟩
    · split at h
      · simp only [List.mem_cons] at h
        rcases h with rfl | h
        · exact .inr ⟨(k, v), by simp, rfl⟩
        · rcases ih h with h | ⟨e', he', h⟩
          · exact .inl h
          · exact .inr ⟨e', by simp [he'], h⟩
      · simp only [List.mem_cons] at h
        rcases h with rfl | h
        · exact .inl rfl
        · exact .inr ⟨e, by simp [h], rfl⟩

theorem pairwise_insertEntry {key : String} {value : α} {es : List (String × α)}
    (h : es.Pairwise fun a b => a.1 < b.1) :
    (insertEntry key value es).Pairwise fun a b => a.1 < b.1 := by
  induction es with
  | nil => simp [insertEntry]
  | cons head rest ih =>
    obtain ⟨k, v⟩ := head
    rw [List.pairwise_cons] at h
    obtain ⟨hk, hr⟩ := h
    simp only [insertEntry]
    split
    · next hlt =>
      refine List.pairwise_cons.2 ⟨?_, List.pairwise_cons.2 ⟨hk, hr⟩⟩
      intro e he
      rcases List.mem_cons.1 he with rfl | he
      · exact hlt
      · exact String.lt_trans hlt (hk e he)
    · next hnlt =>
      split
      · next hgt =>
        refine List.pairwise_cons.2 ⟨?_, ih hr⟩
        intro e he
        rcases fst_of_mem_insertEntry he with h | ⟨e', he', h⟩
        · simpa [h] using hgt
        · exact h ▸ hk e' he'
      · next hngt =>
        have heq : key = k := String.le_antisymm (String.not_lt.1 hngt) (String.not_lt.1 hnlt)
        refine List.pairwise_cons.2 ⟨?_, hr⟩
        intro e he
        simpa [heq] using hk e he

/-- Puts a value under a key; an older one is replaced. -/
def insert (d : Table α) (key : String) (value : α) : Table α :=
  ⟨insertEntry key value d.entries, pairwise_insertEntry d.sorted⟩

@[simp] theorem find?_empty (key : String) : (empty : Table α).find? key = none := rfl

theorem find?_insert (d : Table α) (key : String) (value : α) (k : String) :
    (d.insert key value).find? k = if key = k then some value else d.find? k := by
  have entry (es : List (String × α)) :
      ((insertEntry key value es).find? fun e => e.1 = k) =
        if key = k then some (key, value) else es.find? fun e => e.1 = k := by
    induction es with
    | nil => by_cases hk : key = k <;> simp [insertEntry, hk]
    | cons head rest ih =>
      obtain ⟨k', v⟩ := head
      simp only [insertEntry]
      split
      · by_cases hk : key = k <;> simp [hk]
      · next hnlt =>
        split
        · next hgt =>
          have hne : key ≠ k' := fun h => String.lt_irrefl _ (h ▸ hgt)
          by_cases hk' : k' = k
          · simp [hk', hk' ▸ hne]
          · simpa [hk'] using ih
        · next hngt =>
          have heq : key = k' := String.le_antisymm (String.not_lt.1 hngt) (String.not_lt.1 hnlt)
          by_cases hk : key = k
          · simp [hk]
          · simp [hk, ← heq]
  simp only [find?, insert, entry]
  split <;> rfl

/-- Entries put in one after the other, so the last one under a key stays. -/
def ofList (es : List (String × α)) : Table α :=
  es.foldl (fun d e => d.insert e.1 e.2) empty

def filter (d : Table α) (keep : String → Bool) : Table α :=
  ⟨d.entries.filter fun e => keep e.1, d.sorted.sublist List.filter_sublist⟩

def map {β : Type} (f : α → β) (d : Table α) : Table β :=
  ⟨d.entries.map fun e => (e.1, f e.2), List.pairwise_map.2 d.sorted⟩

end Table

end Patchbay
