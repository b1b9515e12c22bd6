import Mathlib
import Patchbay.Expr.Basic

/-!
# Shared nodes

An expression stands for a graph: its nodes are shared where labels agree. That reading needs one
label to mean one node, which is what `Coherent` says of a set of nodes. The nodes under coherent
roots are then listed each once and behind all of their children.
-/

set_option autoImplicit false

namespace Patchbay

namespace Expr

mutual

/-- A node and all nodes under it, shared ones as often as they occur. -/
def parts : Expr → List Expr
  | node l op key cs => node l op key cs :: partsAll cs

def partsAll : List Expr → List Expr
  | [] => []
  | c :: cs => parts c ++ partsAll cs

end

/-- One label means one node. -/
def Coherent (s : Set Expr) : Prop := s.InjOn label

/-- The nodes under some roots. -/
def under (roots : List Expr) : Set Expr := {e | e ∈ partsAll roots}

theorem mem_parts (e : Expr) : e ∈ parts e := by
  cases e
  simp [parts]

theorem partsAll_eq (cs : List Expr) : partsAll cs = cs.flatMap parts := by
  induction cs with
  | nil => rfl
  | cons c cs ih => simp [partsAll, ih]

theorem mem_partsAll (e : Expr) (cs : List Expr) : e ∈ partsAll cs ↔ ∃ c ∈ cs, e ∈ parts c := by
  simp [partsAll_eq]

theorem coherent_of_subset {roots : List Expr} (nodes : List Expr)
    (labels : (nodes.map label).Nodup) (all : partsAll roots ⊆ nodes) : Coherent (under roots) :=
  fun _ he _ hf h => List.inj_on_of_nodup_map labels (all he) (all hf) h

theorem parts_eq (e : Expr) : parts e = e :: partsAll e.children := by
  cases e
  rfl

theorem mem_parts_child {e c f : Expr} (hc : c ∈ e.children) (h : f ∈ parts c) : f ∈ parts e := by
  rw [parts_eq]
  exact List.mem_cons_of_mem e ((mem_partsAll f _).2 ⟨c, hc, h⟩)

mutual

theorem parts_trans (e f : Expr) (h : f ∈ parts e) : parts f ⊆ parts e := by
  obtain ⟨l, op, key, cs⟩ := e
  rw [parts, List.mem_cons] at h
  rcases h with rfl | h
  · exact List.Subset.refl _
  · rw [parts]
    exact List.subset_cons_of_subset _ (partsAll_trans cs f h)

theorem partsAll_trans (cs : List Expr) (f : Expr) (h : f ∈ partsAll cs) :
    parts f ⊆ partsAll cs := by
  match cs with
  | [] => simp [partsAll] at h
  | c :: cs =>
    rw [partsAll, List.mem_append] at h
    rw [partsAll]
    rcases h with h | h
    · exact List.subset_append_of_subset_left _ (parts_trans c f h)
    · exact List.subset_append_of_subset_right _ (partsAll_trans cs f h)

end

mutual

theorem sizeOf_parts (e f : Expr) (h : f ∈ parts e) : sizeOf f ≤ sizeOf e := by
  obtain ⟨l, op, key, cs⟩ := e
  rw [parts, List.mem_cons] at h
  rcases h with rfl | h
  · exact le_refl _
  · have := sizeOf_partsAll cs f h
    simp only [node.sizeOf_spec]
    omega

theorem sizeOf_partsAll (cs : List Expr) (f : Expr) (h : f ∈ partsAll cs) :
    sizeOf f < sizeOf cs := by
  match cs with
  | [] => simp [partsAll] at h
  | c :: cs =>
    rw [partsAll, List.mem_append] at h
    simp only [List.cons.sizeOf_spec]
    rcases h with h | h
    · have := sizeOf_parts c f h
      omega
    · have := sizeOf_partsAll cs f h
      omega

end

theorem not_mem_partsAll_children (e : Expr) : e ∉ partsAll e.children := by
  intro h
  have := sizeOf_partsAll _ _ h
  cases e
  simp only [children, node.sizeOf_spec] at this
  omega

/-- A list of nodes from last to first: every node stands in front of its children, and no label
occurs twice. -/
def Ordered : List Expr → Prop
  | [] => True
  | e :: rest => (∀ c ∈ e.children, c ∈ rest) ∧ (∀ f ∈ rest, f.label ≠ e.label) ∧ Ordered rest

theorem parts_subset_of_ordered (met : List Expr) (h : Ordered met) (e : Expr) (he : e ∈ met) :
    parts e ⊆ met := by
  induction met generalizing e with
  | nil => simp at he
  | cons f rest ih =>
    obtain ⟨hc, -, hr⟩ := h
    rcases List.mem_cons.1 he with rfl | he
    · rw [parts_eq]
      refine List.cons_subset.2 ⟨by simp, fun g hg => ?_⟩
      obtain ⟨c, hc', hg⟩ := (mem_partsAll _ _).1 hg
      exact List.mem_cons_of_mem _ (ih hr c (hc c hc') hg)
    · exact List.subset_cons_of_subset _ (ih hr e he)

theorem ordered_append (xs ys : List Expr) (e : Expr) (h : Ordered (xs ++ e :: ys)) :
    (∀ c ∈ e.children, c ∈ ys) ∧ ∀ f ∈ ys, f.label ≠ e.label := by
  induction xs with
  | nil => exact ⟨h.1, h.2.1⟩
  | cons x xs ih => exact ih h.2.2

mutual

theorem collect_spec (s : Set Expr) (hs : Coherent s) (e : Expr) (met : List Expr)
    (hm : ∀ f ∈ met, f ∈ s) (he : ∀ f ∈ parts e, f ∈ s) (ho : Ordered met) :
    Ordered (collect met e) ∧ ∀ f, f ∈ collect met e ↔ f ∈ met ∨ f ∈ parts e := by
  obtain ⟨l, op, key, cs⟩ := e
  rw [collect]
  split
  · next h =>
    obtain ⟨g, hg, hl⟩ := List.any_eq_true.1 h
    have hge : g = node l op key cs :=
      hs (hm g hg) (he _ (mem_parts _)) (of_decide_eq_true hl)
    have hsub := parts_subset_of_ordered met ho _ (hge ▸ hg)
    exact ⟨ho, fun f => ⟨.inl, fun hf => hf.elim id fun hf => hsub hf⟩⟩
  · next h =>
    have hc : ∀ f ∈ partsAll cs, f ∈ s := fun f hf => he f (by rw [parts]; simp [hf])
    obtain ⟨hord, hmem⟩ := collectAll_spec s hs cs met hm hc ho
    refine ⟨⟨fun c hc' => ?_, fun f hf hl => ?_, hord⟩, fun f => ?_⟩
    · exact (hmem c).2 (.inr ((mem_partsAll _ _).2 ⟨c, hc', mem_parts c⟩))
    · rcases (hmem f).1 hf with hf | hf
      · exact h (List.any_eq_true.2 ⟨f, hf, decide_eq_true hl⟩)
      · have hfe : f = node l op key cs := hs (hc f hf) (he _ (mem_parts _)) hl
        rw [hfe] at hf
        exact not_mem_partsAll_children (node l op key cs) hf
    · rw [List.mem_cons, hmem, parts, List.mem_cons]
      tauto

theorem collectAll_spec (s : Set Expr) (hs : Coherent s) (cs : List Expr) (met : List Expr)
    (hm : ∀ f ∈ met, f ∈ s) (he : ∀ f ∈ partsAll cs, f ∈ s) (ho : Ordered met) :
    Ordered (collectAll met cs) ∧ ∀ f, f ∈ collectAll met cs ↔ f ∈ met ∨ f ∈ partsAll cs := by
  match cs with
  | [] => exact ⟨ho, fun f => by simp [collectAll, partsAll]⟩
  | c :: cs =>
    rw [collectAll]
    obtain ⟨hord, hmem⟩ := collect_spec s hs c met hm
      (fun f hf => he f (by simp [partsAll, hf])) ho
    have hm' : ∀ f ∈ collect met c, f ∈ s := fun f hf =>
      ((hmem f).1 hf).elim (hm f) fun hf => he f (by simp [partsAll, hf])
    obtain ⟨hord', hmem'⟩ := collectAll_spec s hs cs (collect met c) hm'
      (fun f hf => he f (by simp [partsAll, hf])) hord
    refine ⟨hord', fun f => ?_⟩
    rw [hmem', hmem, partsAll, List.mem_append]
    tauto

end

theorem mem_nodesOf (roots : List Expr) (hs : Coherent (under roots)) (e : Expr) :
    e ∈ nodesOf roots ↔ e ∈ under roots := by
  have := (collectAll_spec _ hs roots [] (by simp) (fun _ h => h) trivial).2 e
  simpa [nodesOf, under] using this

/-- The same from first to last: what stands before a node are all of its children, and no second
node of its label. -/
def Listed (nodes : List Expr) : Prop :=
  ∀ pre post e, nodes = pre ++ e :: post →
    (∀ c ∈ e.children, c ∈ pre) ∧ ∀ f ∈ pre, f.label ≠ e.label

theorem listed_nodesOf (roots : List Expr) (hs : Coherent (under roots)) :
    Listed (nodesOf roots) := by
  intro pre post e h
  have ho := (collectAll_spec _ hs roots [] (by simp) (fun _ h => h) trivial).1
  have hr : collectAll [] roots = post.reverse ++ e :: pre.reverse := by
    rw [← List.reverse_reverse (collectAll [] roots), ← nodesOf, h]
    simp
  rw [hr] at ho
  simpa using ordered_append _ _ _ ho

end Expr

end Patchbay
