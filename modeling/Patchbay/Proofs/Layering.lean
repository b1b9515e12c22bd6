import Mathlib
import Patchbay.Proofs.Accounting

/-!
# Layers of the evaluation order

The depth of a place is the length of the longest path of edges that ends there. The queue is taken
from the front, and what is queued after a place was taken is one deeper than that place. So the
depths in the queue never fall and never differ by more than one, and the order runs through the
places layer by layer, beginning with those that no edge leads to.
-/

set_option autoImplicit false

namespace Patchbay

namespace Order

/-- So many steps of a relation lead to a place one after the other. -/
inductive Path (r : Nat → Nat → Prop) : Nat → Nat → Prop
  | start (i : Nat) : Path r 0 i
  | step {k i j : Nat} : Path r k i → r i j → Path r (k + 1) j

/-- The length of the longest path to a place, infinite where paths can be as long as one likes. -/
noncomputable def depth (r : Nat → Nat → Prop) (i : Nat) : ℕ∞ :=
  ⨆ k : {k // Path r k i}, (k.1 : ℕ∞)

variable {r : Nat → Nat → Prop} {i j : Nat}

theorem le_depth {k : Nat} (h : Path r k i) : (k : ℕ∞) ≤ depth r i :=
  le_iSup (fun k : {k // Path r k i} => (k.1 : ℕ∞)) ⟨k, h⟩

/-- A longest path is there unless paths get as long as one likes. -/
theorem exists_longest (h : depth r i ≠ ⊤) :
    ∃ d : ℕ, depth r i = d ∧ IsGreatest {k | Path r k i} d := by
  have : Nonempty {k // Path r k i} := ⟨0, .start i⟩
  obtain ⟨⟨d, hd⟩, heq⟩ := ENat.exists_eq_iSup_of_lt_top (lt_top_iff_ne_top.2 h)
  refine ⟨d, heq.symm, hd, fun k hk => ?_⟩
  have hle := le_depth hk
  rw [depth, ← heq] at hle
  exact_mod_cast hle

theorem depth_succ_le (h : r i j) : depth r i + 1 ≤ depth r j := by
  have : Nonempty {k // Path r k i} := ⟨0, .start i⟩
  rw [depth, ENat.iSup_add]
  exact iSup_le fun ⟨k, hk⟩ => by exact_mod_cast le_depth (hk.step h)

theorem depth_le {d : ℕ∞} (h : ∀ i, r i j → depth r i + 1 ≤ d) : depth r j ≤ d := by
  refine iSup_le fun ⟨k, hk⟩ => ?_
  cases hk with
  | start => exact zero_le
  | step hpath hlast =>
    calc ((_ + 1 : ℕ) : ℕ∞) ≤ depth r _ + 1 := by exact_mod_cast add_le_add_left (le_depth hpath) 1
      _ ≤ d := h _ hlast

theorem depth_eq_zero_iff : depth r j = 0 ↔ ∀ i, ¬r i j := by
  constructor
  · intro hzero i hi
    have hle := depth_succ_le hi
    rw [hzero] at hle
    simp at hle
  · intro hnone
    exact le_antisymm (depth_le fun i hi => absurd hi (hnone i)) zero_le

variable {count : Nat} {links : List (Nat × Nat)} {done : List Nat}

/-- A place is one deeper than the deepest source of a link into it. -/
theorem depth_eq_succ (h : (i, j) ∈ links)
    (hall : ∀ s, (s, j) ∈ links → depth (Linked links) s ≤ depth (Linked links) i) :
    depth (Linked links) j = depth (Linked links) i + 1 :=
  le_antisymm (depth_le fun s hs => add_le_add_left (hall s hs) 1) (depth_succ_le h)

/-! ## The queue -/

theorem mem_targets : j ∈ targets links i ↔ (i, j) ∈ links := by
  simp [targets]

/-- Passing links leaves what is queued in its place. -/
theorem passAll_queue (passing : List Nat) (s : State) :
    ∃ new, (passing.foldl pass s).queue = s.queue ++ new ∧ new ⊆ passing := by
  induction passing generalizing s with
  | nil => exact ⟨[], by simp, by simp⟩
  | cons i passing ih =>
    obtain ⟨new, hqueue, hnew⟩ := ih (pass s i)
    rw [List.foldl_cons, hqueue, pass]
    split
    · exact ⟨i :: new, by simp, List.cons_subset_cons i hnew⟩
    · exact ⟨new, rfl, List.subset_cons_of_subset i hnew⟩

/-- The places taken and queued stand by depth, and the queued ones lie in two layers at most. -/
structure Layered (links : List (Nat × Nat)) (done queue : List Nat) : Prop where
  sorted : (done ++ queue).Pairwise fun i j => depth (Linked links) i ≤ depth (Linked links) j
  finite : ∀ i ∈ done ++ queue, depth (Linked links) i ≠ ⊤
  close : ∀ i ∈ queue, ∀ j ∈ queue, depth (Linked links) j ≤ depth (Linked links) i + 1

/-- Taking a place and passing its links keeps the layers. -/
theorem layered_take {degrees : Array Nat} {queue : List Nat}
    (h : Stage count links done [] ⟨degrees, i :: queue⟩) (hl : ∀ l ∈ links, l.2 < count)
    (hlayered : Layered links done (i :: queue)) :
    Layered links (done ++ [i]) ((targets links i).foldl pass ⟨degrees, queue⟩).queue := by
  obtain ⟨new, hqueue, hnew⟩ := passAll_queue (targets links i) ⟨degrees, queue⟩
  have hstage := passAll_stage (take_stage h) fun j hj => target_lt hl hj
  obtain ⟨hsorted, hfinite, hclose⟩ := hlayered
  obtain ⟨hdone, hqueued, hcross⟩ := List.pairwise_append.1 hsorted
  obtain ⟨hfirst, -⟩ := List.pairwise_cons.1 hqueued
  -- all sources of what is newly queued have been taken, the last of them just now
  have hlayer (j : Nat) (hj : j ∈ new) : depth (Linked links) j = depth (Linked links) i + 1 := by
    have hready := ((hstage.ready j).1 (by rw [hqueue]; simp [hj])).2
    have hsources := (waiting_eq_zero links (done ++ [i]) j).1 (by simpa using hready)
    refine depth_eq_succ (mem_targets.1 (hnew hj)) fun s hs => ?_
    rcases List.mem_append.1 (hsources s hs) with hs | hs
    · exact hcross s hs i (by simp)
    · rw [List.mem_singleton.1 hs]
  have hqueue' (j : Nat) (hj : j ∈ queue ++ new) : depth (Linked links) i ≤ depth (Linked links) j ∧
      depth (Linked links) j ≤ depth (Linked links) i + 1 := by
    rcases List.mem_append.1 hj with hj | hj
    · exact ⟨hfirst j hj, hclose i (by simp) j (by simp [hj])⟩
    · rw [hlayer j hj]
      exact ⟨le_self_add, le_refl _⟩
  rw [hqueue]
  simp only
  refine ⟨?_, fun j hj => ?_, fun a ha b hb => ?_⟩
  · have hsplit : done ++ [i] ++ (queue ++ new) = (done ++ i :: queue) ++ new := by simp
    rw [hsplit, List.pairwise_append]
    refine ⟨hsorted, List.pairwise_of_forall_mem_list fun a ha b hb => ?_, fun a ha b hb => ?_⟩
    · rw [hlayer a ha, hlayer b hb]
    · rw [hlayer b hb]
      rcases List.mem_append.1 ha with ha | ha
      · exact (hcross a ha i (by simp)).trans le_self_add
      · exact hclose i (by simp) a ha
  · have hi : depth (Linked links) i ≠ ⊤ := hfinite i (by simp)
    rcases List.mem_append.1 hj with hj | hj
    · exact hfinite j (by simp at hj ⊢; tauto)
    · exact ne_top_of_le_ne_top (by simpa using hi) (hqueue' j hj).2
  · calc depth (Linked links) b ≤ depth (Linked links) i + 1 := (hqueue' b hb).2
      _ ≤ depth (Linked links) a + 1 := add_le_add_left (hqueue' a ha).1 1

theorem run_layered (hl : ∀ l ∈ links, l.2 < count) (fuel : Nat) (s : State)
    (h : Stage count links done [] s) (hlayered : Layered links done s.queue) :
    Layered links (done ++ run links fuel s) [] := by
  induction fuel generalizing done s with
  | zero =>
    obtain ⟨hsorted, hfinite, -⟩ := hlayered
    rw [run, List.append_nil]
    refine ⟨?_, fun i hi => hfinite i (by simp at hi; simp [hi]), by simp⟩
    simpa using (List.pairwise_append.1 hsorted).1
  | succ fuel ih =>
    obtain ⟨degrees, queue⟩ := s
    cases queue with
    | nil => simpa [run] using hlayered
    | cons i queue =>
      have hstage := passAll_stage (take_stage h) fun j hj => target_lt hl hj
      have := ih _ hstage (layered_take h hl hlayered)
      rwa [List.append_assoc] at this

/-- What is queued is taken in this order before anything else. -/
theorem queue_prefix_run (hl : ∀ l ∈ links, l.2 < count) (fuel : Nat) (s : State)
    (h : Stage count links done [] s) (hf : done.length + fuel = count) :
    s.queue <+: run links fuel s := by
  induction fuel generalizing done s with
  | zero =>
    have hlen := length_le_of_stage h
    rw [List.eq_nil_of_length_eq_zero (l := s.queue) (by omega)]
    exact List.nil_prefix
  | succ fuel ih =>
    obtain ⟨degrees, queue⟩ := s
    cases queue with
    | nil => exact List.nil_prefix
    | cons i queue =>
      have hstage := passAll_stage (take_stage h) fun j hj => target_lt hl hj
      obtain ⟨new, hqueue, -⟩ := passAll_queue (targets links i) ⟨degrees, queue⟩
      have hrest := ih _ hstage (by simp; omega)
      rw [hqueue] at hrest
      exact List.cons_prefix_cons.2 ⟨rfl, (List.prefix_append queue new).trans hrest⟩

theorem start_queue (hl : ∀ l ∈ links, l.2 < count) :
    (start count links).queue =
      (List.range count).filter fun i => depth (Linked links) i = 0 := by
  refine List.filter_congr fun i hi => ?_
  have hdegree := (start_stage hl).degree i (List.mem_range.1 hi)
  have hzero : waiting links [] i = 0 ↔ depth (Linked links) i = 0 := by
    rw [waiting_eq_zero, depth_eq_zero_iff]
    simp [Linked]
  simp only [List.count_nil, Nat.add_zero] at hdegree
  rw [decide_eq_decide, ← hzero, ← hdegree]
  rfl

theorem start_layered (hl : ∀ l ∈ links, l.2 < count) :
    Layered links [] (start count links).queue := by
  have hzero (i : Nat) (hi : i ∈ (start count links).queue) : depth (Linked links) i = 0 := by
    rw [start_queue hl] at hi
    exact of_decide_eq_true (List.mem_filter.1 hi).2
  refine ⟨List.pairwise_of_forall_mem_list fun i hi j hj => ?_, fun i hi => ?_, fun i _ j hj => ?_⟩
  · rw [hzero i hi, hzero j hj]
  · rw [hzero i hi]
    exact ENat.zero_ne_top
  · rw [hzero j hj]
    exact zero_le

/-- The order goes by depth. There is a longest path of edges to every place of it, along the order
these paths never get shorter, and it begins with all places that no edge leads to, as they stand
in the document. -/
theorem topological_layered (nodes : List Node) (edges : List Edge) :
    (∀ i ∈ topological nodes edges, ∃ d : ℕ, depth (Joined nodes edges) i = d ∧
      IsGreatest {k | Path (Joined nodes edges) k i} d) ∧
    ((topological nodes edges).Pairwise fun i j =>
      depth (Joined nodes edges) i ≤ depth (Joined nodes edges) j) ∧
    (List.range nodes.length).filter (fun i => depth (Joined nodes edges) i = 0) <+:
      topological nodes edges := by
  have hl := links_target_lt nodes edges
  have hstage := start_stage hl
  obtain ⟨hsorted, hfinite, -⟩ := run_layered hl nodes.length _ hstage (start_layered hl)
  rw [List.append_nil] at hsorted hfinite
  rw [← linked_links, ← start_queue hl]
  exact ⟨fun i hi => exists_longest (hfinite i hi), hsorted,
    queue_prefix_run hl nodes.length _ hstage (by simp)⟩

-- The third node is one edge deep and so comes before the fourth, which hangs on the second.
example : topological [.new "a" "x", .new "b" "x", .new "c" "x", .new "d" "x"]
    [⟨"1", "a", "o", "b", "i"⟩, ⟨"2", "b", "o", "d", "i"⟩, ⟨"3", "a", "o", "c", "i"⟩] =
    [0, 1, 2, 3] := by decide

end Order

end Patchbay
