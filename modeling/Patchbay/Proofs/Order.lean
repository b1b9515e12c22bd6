import Mathlib
import Patchbay.Compile.Order

/-!
# The order of evaluation

The queue algorithm keeps one invariant: the degree of a place counts the links into it that have
not been passed, and the places that are taken or queued are those without any. So the order holds
every place whose sources it holds, each once and behind them, and leaves out exactly the places
on a cycle or behind one.
-/

set_option autoImplicit false

namespace Patchbay

namespace Order

/-- Every place of a list stands behind all sources that link to it. -/
def Forward (links : List (Nat × Nat)) (order : List Nat) : Prop :=
  ∀ pre post i, order = pre ++ i :: post → ∀ s, (s, i) ∈ links → s ∈ pre

theorem forward_nil (links : List (Nat × Nat)) : Forward links [] := by
  intro pre post i h
  simp at h

theorem forward_snoc {links : List (Nat × Nat)} {order : List Nat} {i : Nat}
    (h : Forward links order) (hi : ∀ s, (s, i) ∈ links → s ∈ order) :
    Forward links (order ++ [i]) := by
  intro pre post j hj s hs
  rcases List.eq_nil_or_concat post with rfl | ⟨post, k, rfl⟩
  · obtain ⟨rfl, hij⟩ := List.append_inj' hj rfl
    cases hij
    exact hi s hs
  · have hj' : order ++ [i] = (pre ++ j :: post) ++ [k] := by simpa using hj
    obtain ⟨rfl, -⟩ := List.append_inj' hj' rfl
    exact h pre post j rfl s hs

/-- The links into a place whose sources have not been taken. -/
def waiting (links : List (Nat × Nat)) (done : List Nat) (i : Nat) : Nat :=
  links.countP fun l => l.2 = i ∧ l.1 ∉ done

theorem waiting_eq_zero (links : List (Nat × Nat)) (done : List Nat) (i : Nat) :
    waiting links done i = 0 ↔ ∀ s, (s, i) ∈ links → s ∈ done := by
  simp only [waiting, List.countP_eq_zero, decide_eq_true_eq, not_and, not_not, Prod.forall]
  constructor
  · intro h s hs
    exact h s i hs rfl
  · rintro h s _ hs rfl
    exact h s hs

theorem waiting_cons (links : List (Nat × Nat)) (done : List Nat) (s k i : Nat) :
    waiting ((s, k) :: links) done i =
      waiting links done i + if k = i ∧ s ∉ done then 1 else 0 := by
  simp only [waiting, List.countP_cons, decide_eq_true_eq]

theorem count_targets_cons (links : List (Nat × Nat)) (s k i j : Nat) :
    (targets ((s, k) :: links) i).count j =
      (targets links i).count j + if s = i ∧ k = j then 1 else 0 := by
  simp only [targets, List.filter_cons]
  by_cases hs : s = i <;> by_cases hk : k = j <;> simp [hs, hk]

theorem waiting_snoc (links : List (Nat × Nat)) (done : List Nat) (i j : Nat) (h : i ∉ done) :
    waiting links done j = waiting links (done ++ [i]) j + (targets links i).count j := by
  induction links with
  | nil => rfl
  | cons l links ih =>
    obtain ⟨s, k⟩ := l
    rw [waiting_cons, waiting_cons, count_targets_cons, ih]
    rcases eq_or_ne s i with rfl | hs
    · simp [h]
      omega
    · simp [hs]
      omega

/-- In the middle of the algorithm: `done` are the places taken, and links to `passing` are still
to be passed. -/
structure Stage (count : Nat) (links : List (Nat × Nat)) (done passing : List Nat)
    (s : State) : Prop where
  size : s.degrees.size = count
  degree : ∀ i < count, s.degrees.getD i 0 = waiting links done i + passing.count i
  nodup : (done ++ s.queue).Nodup
  ready : ∀ i, i ∈ done ++ s.queue ↔ i < count ∧ waiting links done i + passing.count i = 0
  forward : Forward links done

variable {count : Nat} {links : List (Nat × Nat)} {done passing : List Nat}

theorem pass_stage {s : State} {i : Nat} (h : Stage count links done (i :: passing) s)
    (hi : i < count) : Stage count links done passing (pass s i) := by
  have hdeg := h.degree i hi
  rw [List.count_cons_self] at hdeg
  -- one link into `i` is still to be passed, so `i` is neither taken nor queued
  have hout : i ∉ done ++ s.queue := by
    rw [h.ready, List.count_cons_self]
    omega
  have hother (j : Nat) (hj : j ≠ i) : (i :: passing).count j = passing.count j :=
    List.count_cons_of_ne hj.symm
  have hmem (j : Nat) : j ∈ done ++ (pass s i).queue ↔
      j < count ∧ waiting links done j + passing.count j = 0 := by
    rcases eq_or_ne j i with rfl | hj
    · simp only [pass]
      split
      · exact ⟨fun _ => ⟨hi, by omega⟩, fun _ => by simp⟩
      · exact ⟨fun hmem => absurd hmem hout, fun ⟨_, hz⟩ => by omega⟩
    · rw [← hother j hj, ← h.ready]
      simp only [pass]
      split <;> simp [hj]
  refine ⟨by simp [pass, h.size], fun j hj => ?_, ?_, hmem, h.forward⟩
  · rcases eq_or_ne j i with rfl | hj'
    · simp only [pass, Array.getD_eq_getD_getElem?]
      rw [Array.getElem?_setIfInBounds_self_of_lt (by rw [h.size]; exact hj), Option.getD_some,
        ← Array.getD_eq_getD_getElem?, hdeg]
      omega
    · have := h.degree j hj
      rw [hother j hj'] at this
      rw [← this]
      simp [pass, Array.getD_eq_getD_getElem?, Array.getElem?_setIfInBounds_ne hj'.symm]
  · simp only [pass]
    split
    · rw [← List.append_assoc, List.nodup_append]
      refine ⟨h.nodup, by simp, fun a ha b hb => ?_⟩
      rw [List.mem_singleton] at hb
      rintro rfl
      exact hout (hb ▸ ha)
    · exact h.nodup

theorem passAll_stage {s : State} (h : Stage count links done passing s)
    (hp : ∀ i ∈ passing, i < count) : Stage count links done [] (passing.foldl pass s) := by
  induction passing generalizing s with
  | nil => exact h
  | cons i passing ih =>
    exact ih (pass_stage h (hp i (by simp))) fun j hj => hp j (by simp [hj])

theorem take_stage {degrees : Array Nat} {queue : List Nat} {i : Nat}
    (h : Stage count links done [] ⟨degrees, i :: queue⟩) :
    Stage count links (done ++ [i]) (targets links i) ⟨degrees, queue⟩ := by
  have hnodup : (done ++ i :: queue).Nodup := h.nodup
  have hi : i ∉ done := by
    intro hmem
    exact (List.nodup_append.1 hnodup).2.2 i hmem i (by simp) rfl
  have hready := (h.ready i).1 (by simp)
  refine ⟨h.size, fun j hj => ?_, by simpa using hnodup, fun j => ?_, forward_snoc h.forward ?_⟩
  · rw [← waiting_snoc links done i j hi]
    simpa using h.degree j hj
  · rw [← waiting_snoc links done i j hi]
    simpa using h.ready j
  · exact (waiting_eq_zero links done i).1 (by simpa using hready.2)

/-- What an order of places has to be. -/
structure Sorted (count : Nat) (links : List (Nat × Nat)) (order : List Nat) : Prop where
  nodup : order.Nodup
  mem_iff : ∀ i, i ∈ order ↔ i < count ∧ ∀ s, (s, i) ∈ links → s ∈ order
  forward : Forward links order

theorem sorted_of_stage {degrees : Array Nat} (h : Stage count links done [] ⟨degrees, []⟩) :
    Sorted count links done := by
  refine ⟨by simpa using h.nodup, fun i => ?_, h.forward⟩
  rw [← waiting_eq_zero]
  simpa using h.ready i

theorem length_le_of_nodup {places : List Nat} (h : places.Nodup) (hlt : ∀ i ∈ places, i < count) :
    places.length ≤ count := by
  rw [← List.length_range (n := count)]
  exact (List.subperm_of_subset h fun i hi => List.mem_range.2 (hlt i hi)).length_le

theorem length_le_of_stage {s : State} (h : Stage count links done passing s) :
    done.length + s.queue.length ≤ count := by
  rw [← List.length_append]
  exact length_le_of_nodup h.nodup fun i hi => ((h.ready i).1 hi).1

theorem Sorted.length_le {order : List Nat} (h : Sorted count links order) :
    order.length ≤ count :=
  length_le_of_nodup h.nodup fun i hi => ((h.mem_iff i).1 hi).1

theorem target_lt (hl : ∀ l ∈ links, l.2 < count) {i j : Nat} (hj : j ∈ targets links i) :
    j < count := by
  obtain ⟨l, hl', rfl⟩ := List.mem_map.1 hj
  exact hl l (List.mem_filter.1 hl').1

theorem run_sorted (hl : ∀ l ∈ links, l.2 < count) (fuel : Nat) (s : State)
    (h : Stage count links done [] s) (hf : done.length + fuel = count) :
    Sorted count links (done ++ run links fuel s) := by
  induction fuel generalizing done s with
  | zero =>
    obtain ⟨degrees, queue⟩ := s
    have hlen := length_le_of_stage h
    simp only at hlen
    obtain rfl : queue = [] := List.length_eq_zero_iff.1 (by omega)
    rw [run, List.append_nil]
    exact sorted_of_stage h
  | succ fuel ih =>
    obtain ⟨degrees, queue⟩ := s
    cases queue with
    | nil =>
      rw [run, List.append_nil]
      exact sorted_of_stage h
    | cons i queue =>
      have hlt : ∀ j ∈ targets links i, j < count := fun j hj => target_lt hl hj
      have := ih _ (passAll_stage (take_stage h) hlt) (by simp; omega)
      rwa [List.append_assoc] at this

theorem getD_modify_succ (degrees : Array Nat) (k i : Nat) (hk : k < degrees.size) :
    (degrees.modify k (· + 1)).getD i 0 = degrees.getD i 0 + if k = i then 1 else 0 := by
  rcases eq_or_ne k i with rfl | h
  · simp [Array.getD_eq_getD_getElem?, hk, Array.getElem_modify_self]
  · simp [Array.getD_eq_getD_getElem?, Array.getElem?_modify, h]

theorem count_degrees (links : List (Nat × Nat)) (degrees : Array Nat)
    (hl : ∀ l ∈ links, l.2 < degrees.size) (i : Nat) :
    (links.foldl (fun d l => d.modify l.2 (· + 1)) degrees).size = degrees.size ∧
      (links.foldl (fun d l => d.modify l.2 (· + 1)) degrees).getD i 0 =
        degrees.getD i 0 + waiting links [] i := by
  induction links generalizing degrees with
  | nil => exact ⟨rfl, rfl⟩
  | cons l links ih =>
    obtain ⟨s, k⟩ := l
    obtain ⟨hsize, hget⟩ := ih (degrees.modify k (· + 1)) fun m hm => by
      rw [Array.size_modify]
      exact hl m (by simp [hm])
    rw [Array.size_modify] at hsize
    refine ⟨hsize, ?_⟩
    rw [List.foldl_cons, hget, getD_modify_succ _ _ _ (hl (s, k) (by simp)), waiting_cons]
    simp
    omega

theorem start_stage (hl : ∀ l ∈ links, l.2 < count) :
    Stage count links [] [] (start count links) := by
  have hcount (i : Nat) := count_degrees links (.replicate count 0) (by simpa using hl) i
  have hzero (i : Nat) : (Array.replicate count 0).getD i 0 = 0 := by
    simp [Array.getD_eq_getD_getElem?, Array.getElem?_replicate]
    split <;> rfl
  have hdeg (i : Nat) : (start count links).degrees.getD i 0 = waiting links [] i := by
    have := (hcount i).2
    rwa [hzero, Nat.zero_add] at this
  refine ⟨(hcount 0).1.trans (Array.size_replicate ..), fun i _ => by simpa using hdeg i, ?_,
    fun i => ?_, forward_nil links⟩
  · simpa [start] using List.nodup_range.filter _
  · rw [List.count_nil, Nat.add_zero, ← hdeg i]
    simp [start]

theorem indexOf?_lt {nodes : List Node} {id : String} {i : Nat} (h : indexOf? nodes id = some i) :
    i < nodes.length := (List.findIdx?_eq_some_iff_getElem.1 h).1

theorem mem_links (nodes : List Node) (edges : List Edge) (l : Nat × Nat) :
    l ∈ Order.links nodes edges ↔ ∃ e ∈ edges,
      indexOf? nodes e.source = some l.1 ∧ indexOf? nodes e.target = some l.2 := by
  obtain ⟨s, t⟩ := l
  simp [Order.links, Option.bind_eq_some_iff]

theorem links_target_lt (nodes : List Node) (edges : List Edge) :
    ∀ l ∈ Order.links nodes edges, l.2 < nodes.length := by
  intro l hl
  obtain ⟨e, -, -, ht⟩ := (mem_links nodes edges l).1 hl
  exact indexOf?_lt ht

theorem topological_sorted (nodes : List Node) (edges : List Edge) :
    Sorted nodes.length (Order.links nodes edges) (topological nodes edges) := by
  have hl := links_target_lt nodes edges
  exact run_sorted hl nodes.length _ (start_stage hl) (by simp)

end Order

end Patchbay
