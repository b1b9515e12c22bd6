import Mathlib
import Patchbay.Proofs.Arrangement

/-!
# Cycles

The order leaves out the places that lie on a cycle of links or behind one, and no others: a place
is taken exactly if going back along links from it comes to an end.
-/

set_option autoImplicit false

namespace Patchbay

namespace Order

open Relation

variable {count : Nat} {links : List (Nat × Nat)} {order : List Nat}

/-- A link leads from one place to the other. -/
def Linked (links : List (Nat × Nat)) (i j : Nat) : Prop := (i, j) ∈ links

/-- The place is on a cycle of links or behind one. -/
def Cyclic (links : List (Nat × Nat)) (i : Nat) : Prop :=
  ∃ j, TransGen (Linked links) j j ∧ ReflTransGen (Linked links) j i

theorem Sorted.acc (h : Sorted count links order) : ∀ i ∈ order, Acc (Linked links) i := by
  apply forall_of_prefix
  intro pre i post ho hpre
  constructor
  intro s hs
  exact hpre s (h.forward pre post i ho s hs)

theorem Sorted.mem_of_acc (h : Sorted count links order) (hl : ∀ l ∈ links, l.1 < count) {i : Nat}
    (hi : i < count) (hacc : Acc (Linked links) i) : i ∈ order := by
  induction hacc with
  | intro i _ ih =>
    rw [h.mem_iff]
    exact ⟨hi, fun s hs => ih s hs (hl _ hs)⟩

theorem not_cyclic_of_acc {i : Nat} (h : Acc (Linked links) i) : ¬Cyclic links i := by
  rintro ⟨j, hcycle, hbehind⟩
  have hj : Acc (TransGen (Linked links)) j := by
    rw [acc_transGen_iff]
    clear hcycle
    -- going back from a place that has an end behind it leads to another such place
    induction hbehind with
    | refl => exact h
    | tail _ hlast ih => exact ih (h.inv hlast)
  clear hbehind
  induction hj with
  | intro j _ ih => exact ih j hcycle hcycle

/-- A way back that does not end runs in a circle, as there are finitely many places. -/
theorem cyclic_of_not_acc (hl : ∀ l ∈ links, l.1 < count) {i : Nat} (h : ¬Acc (Linked links) i) :
    Cyclic links i := by
  obtain ⟨f, rfl, hf⟩ := not_acc_iff_exists_descending_chain.1 h
  have hback (a k : Nat) : ReflTransGen (Linked links) (f (a + k)) (f a) := by
    induction k with
    | zero => exact .refl
    | succ k ih => exact .head (hf (a + k)) ih
  have hnot : ¬Function.Injective fun a => (⟨f (a + 1), hl _ (hf a)⟩ : Fin count) :=
    not_injective_infinite_finite _
  simp only [Function.Injective, Fin.mk.injEq, not_forall] at hnot
  obtain ⟨a, b, heq, hne⟩ := hnot
  wlog hab : a < b generalizing a b
  · exact this b a heq.symm (Ne.symm hne) (by omega)
  refine ⟨f (a + 1), ?_, by simpa using hback 0 (a + 1)⟩
  have hstep : Linked links (f (b + 1)) (f b) := hf b
  rw [← heq] at hstep
  refine TransGen.head' hstep ?_
  have := hback (a + 1) (b - (a + 1))
  rwa [Nat.add_sub_cancel' hab] at this

/-- Only cycles keep a place out of the order. -/
theorem Sorted.not_mem_iff (h : Sorted count links order) (hl : ∀ l ∈ links, l.1 < count) {i : Nat}
    (hi : i < count) : i ∉ order ↔ Cyclic links i := by
  constructor
  · intro hmem
    exact cyclic_of_not_acc hl fun hacc => hmem (h.mem_of_acc hl hi hacc)
  · intro hcyclic hmem
    exact not_cyclic_of_acc (h.acc i hmem) hcyclic

theorem not_mem_topological_iff (nodes : List Node) (edges : List Edge) {i : Nat}
    (hi : i < nodes.length) :
    i ∉ topological nodes edges ↔ Cyclic (Order.links nodes edges) i := by
  apply (topological_sorted nodes edges).not_mem_iff _ hi
  intro l hl
  obtain ⟨e, -, hs, -⟩ := (mem_links nodes edges l).1 hl
  exact indexOf?_lt hs

end Order

end Patchbay
