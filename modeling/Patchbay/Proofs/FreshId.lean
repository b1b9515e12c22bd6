import Mathlib
import Patchbay.Editor

/-!
# Fresh ids

The search for a new id looks at as many numbers as there are ids, and takes the one behind them
if all of these are taken. Distinct numbers give distinct ids, so by then none is left to stand in
its way.
-/

set_option autoImplicit false

namespace Patchbay

theorem digitText_injective : Function.Injective digitText := by
  intro a b h
  have hdigits : Nat.toDigits 10 a = Nat.toDigits 10 b := String.ofList_injective h
  rw [← Nat.ofDigitChars_ten_toDigits (n := a), hdigits, Nat.ofDigitChars_ten_toDigits]

namespace PatchGraph

theorem idAt_injective (stem : String) : Function.Injective (idAt stem) := by
  intro a b h
  have hlists := congrArg String.toList h
  simp only [idAt, String.toList_append, List.append_assoc, List.append_cancel_left_eq] at hlists
  exact digitText_injective (String.toList_injective hlists)

/-- The ids of a graph, of nodes and edges alike. -/
def ids (g : PatchGraph) : List String := g.nodes.map Node.id ++ g.edges.map Edge.id

theorem isTaken_iff (g : PatchGraph) (id : String) : g.isTaken id = true ↔ id ∈ g.ids := by
  simp [isTaken, ids]

/-- All numbers passed over are taken, and the number found is not or is the last one. -/
theorem freeNumber_spec (g : PatchGraph) (stem : String) (fuel n : Nat) :
    (∀ k, n < k → k < g.freeNumber stem fuel n → idAt stem k ∈ g.ids) ∧
      (idAt stem (g.freeNumber stem fuel n) ∉ g.ids ∨ g.freeNumber stem fuel n = n + fuel + 1) := by
  induction fuel generalizing n with
  | zero =>
    refine ⟨fun k hk hlt => ?_, .inr rfl⟩
    rw [freeNumber] at hlt
    omega
  | succ fuel ih =>
    rw [freeNumber]
    split
    · next htaken =>
      obtain ⟨hpassed, hfound⟩ := ih (n + 1)
      refine ⟨fun k hk hlt => ?_, hfound.imp_right fun h => by omega⟩
      rcases eq_or_ne k (n + 1) with rfl | hne
      · exact (isTaken_iff g _).1 htaken
      · exact hpassed k (by omega) hlt
    · next hfree =>
      exact ⟨fun k hk hlt => by omega, .inl fun hmem => hfree ((isTaken_iff g _).2 hmem)⟩

theorem freeNumber_not_taken (g : PatchGraph) (stem : String) (n : Nat) :
    idAt stem (g.freeNumber stem (g.nodes.length + g.edges.length) n) ∉ g.ids := by
  obtain ⟨hpassed, hfree | hlast⟩ :=
    freeNumber_spec g stem (g.nodes.length + g.edges.length) n
  · exact hfree
  intro htaken
  have hall : (List.range' (n + 1) (g.ids.length + 1)).map (idAt stem) ⊆ g.ids := by
    intro id hid
    obtain ⟨k, hk, rfl⟩ := List.mem_map.1 hid
    have hlen : g.ids.length = g.nodes.length + g.edges.length := by simp [ids]
    rw [List.mem_range'_1, hlen] at hk
    rcases eq_or_ne k (g.freeNumber stem (g.nodes.length + g.edges.length) n) with rfl | hne
    · exact htaken
    · exact hpassed k (by omega) (by omega)
  have hnodup : ((List.range' (n + 1) (g.ids.length + 1)).map (idAt stem)).Nodup :=
    (List.nodup_range' ..).map (idAt_injective stem)
  have hle := (List.subperm_of_subset hnodup hall).length_le
  simp at hle

theorem freshId_not_mem (g : PatchGraph) (stem : String) : (g.freshId stem).1 ∉ g.ids :=
  freeNumber_not_taken g stem g.lastId

end PatchGraph

end Patchbay
