import Mathlib
import Patchbay.Proofs.Layout
import Patchbay.Proofs.Table

/-!
# Values that are set

A renderer remembers the latest value for every key. To set all of them on a program that is new, in
any order, gives every constant the value it had.
-/

set_option autoImplicit false

namespace Patchbay

open Patchbay.Expr

/-- The value set for a key. -/
def lookup (overrides : List (String × Float32)) (key : String) : Option Float32 :=
  (overrides.find? (·.1 = key)).map Prod.snd

theorem lookup_cons (k : String) (v : Float32) (rest : List (String × Float32)) :
    lookup ((k, v) :: rest) = Function.update (lookup rest) k (some v) := by
  funext key
  rw [lookup, List.find?_cons]
  by_cases h : k = key
  · simp [h]
  · simp [h, lookup, Function.update_of_ne (Ne.symm h)]

theorem lookup_override (key : String) (value : Float32) (overrides : List (String × Float32)) :
    lookup (Renderer.override key value overrides) =
      Function.update (lookup overrides) key (some value) := by
  induction overrides with
  | nil => exact lookup_cons key value []
  | cons o overrides ih =>
    obtain ⟨k, v⟩ := o
    rw [Renderer.override]
    by_cases hk : k = key
    · rw [if_pos hk, lookup_cons, lookup_cons, hk, Function.update_idem]
    · rw [if_neg hk, lookup_cons, lookup_cons, ih, Function.update_comm hk]

theorem override_fst (key : String) (value : Float32) (overrides : List (String × Float32)) :
    (Renderer.override key value overrides).map Prod.fst =
      if key ∈ overrides.map Prod.fst then overrides.map Prod.fst
      else overrides.map Prod.fst ++ [key] := by
  induction overrides with
  | nil => rfl
  | cons o overrides ih =>
    obtain ⟨k, v⟩ := o
    rw [Renderer.override]
    by_cases hk : k = key
    · simp [hk]
    · by_cases hmem : key ∈ overrides.map Prod.fst
      · simp [hk, ih, hmem]
      · simp [hk, Ne.symm hk, ih, hmem]

theorem override_nodup {overrides : List (String × Float32)}
    (h : (overrides.map Prod.fst).Nodup) (key : String) (value : Float32) :
    ((Renderer.override key value overrides).map Prod.fst).Nodup := by
  rw [override_fst]
  split
  · exact h
  · next hnot =>
    refine List.nodup_append.2 ⟨h, by simp, fun k hk k' hk' => ?_⟩
    rw [List.mem_singleton.1 hk']
    rintro rfl
    exact hnot hk

theorem lookup_eq_some_iff {overrides : List (String × Float32)}
    (h : (overrides.map Prod.fst).Nodup) (key : String) (value : Float32) :
    lookup overrides key = some value ↔ (key, value) ∈ overrides := by
  rw [lookup, Option.map_eq_some_iff]
  constructor
  · rintro ⟨⟨k, v⟩, hfind, rfl⟩
    obtain rfl : k = key := by simpa using List.find?_some hfind
    exact List.mem_of_find?_eq_some hfind
  · intro hmem
    exact ⟨_, find?_of_distinct h (by simp) hmem, rfl⟩

theorem lookup_perm {settings overrides : List (String × Float32)}
    (h : (overrides.map Prod.fst).Nodup) (hperm : settings.Perm overrides) :
    lookup settings = lookup overrides := by
  funext key
  apply Option.ext
  intro value
  rw [lookup_eq_some_iff h, lookup_eq_some_iff ((hperm.map Prod.fst).nodup_iff.2 h),
    hperm.mem_iff]

/-- Values set one after the other are those that are remembered, if no key comes twice. -/
theorem foldl_update {settings : List (String × Float32)} (h : (settings.map Prod.fst).Nodup)
    (current : String → Option Float32) (key : String) :
    settings.foldl (fun (c : String → Option Float32) s => Function.update c s.1 (some s.2)) current
        key =
      (lookup settings key).or (current key) := by
  induction settings generalizing current with
  | nil => rfl
  | cons s settings ih =>
    obtain ⟨k, v⟩ := s
    rw [List.map_cons, List.nodup_cons] at h
    rw [List.foldl_cons, ih h.2, lookup_cons]
    by_cases hk : key = k
    · have hnone : lookup settings key = none := by
        cases hl : lookup settings key with
        | none => rfl
        | some w =>
          have hmem : key ∈ settings.map Prod.fst :=
            List.mem_map_of_mem ((lookup_eq_some_iff h.2 key w).1 hl)
          exact absurd (hk ▸ hmem) h.1
      rw [hnone, hk, Function.update_self, Function.update_self]
      rfl
    · rw [Function.update_of_ne hk, Function.update_of_ne hk]

namespace Renderer

/-- Sets some constants one after the other. -/
def setAll (r : Renderer) (settings : List (String × Float32)) : Renderer :=
  settings.foldl (fun r s => (r.setConst? s.1 s.2).getD r) r

end Renderer

end Patchbay
