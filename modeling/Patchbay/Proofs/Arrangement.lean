import Mathlib
import Patchbay.Proofs.Order

/-!
# Sorted nodes

Where ids are distinct, places and links can be forgotten: the compiler takes the nodes themselves
in an order in which every edge leads forwards, and which nodes these are depends on nothing but
the nodes and edges there are.
-/

set_option autoImplicit false

namespace Patchbay

namespace Order

variable {nodes nodes' ns ns' : List Node} {edges : List Edge}

/-- Some edge leads from one node to another. -/
def Leads (edges : List Edge) (m n : Node) : Prop := ∃ e ∈ edges, e.source = m.id ∧ e.target = n.id

/-- The nodes of a patch as the compiler takes them. -/
structure Arranged (nodes : List Node) (edges : List Edge) (ns : List Node) : Prop where
  nodup : ns.Nodup
  mem_iff : ∀ n, n ∈ ns ↔ n ∈ nodes ∧ ∀ m ∈ nodes, Leads edges m n → m ∈ ns
  forward : ∀ pre post n, ns = pre ++ n :: post → ∀ m ∈ nodes, Leads edges m n → m ∈ pre

theorem eq_of_id (distinct : (nodes.map Node.id).Nodup) {m n : Node} (hm : m ∈ nodes)
    (hn : n ∈ nodes) (h : m.id = n.id) : m = n := List.inj_on_of_nodup_map distinct hm hn h

theorem indexOf?_eq_some_iff (distinct : (nodes.map Node.id).Nodup) (id : String) (i : Nat) :
    indexOf? nodes id = some i ↔ ∃ n, nodes[i]? = some n ∧ n.id = id := by
  rw [indexOf?, List.findIdx?_eq_some_iff_getElem]
  constructor
  · rintro ⟨hi, hid, -⟩
    exact ⟨nodes[i], List.getElem?_eq_getElem hi, of_decide_eq_true hid⟩
  · rintro ⟨n, hn, rfl⟩
    obtain ⟨hi, rfl⟩ := List.getElem?_eq_some_iff.1 hn
    have hne := List.pairwise_iff_getElem.1 (List.pairwise_map.1 distinct)
    exact ⟨hi, by simp, fun j hj => by simpa using hne j i (by omega) hi hj⟩

theorem mem_links_iff (distinct : (nodes.map Node.id).Nodup) {i j : Nat} {m n : Node}
    (hm : nodes[i]? = some m) (hn : nodes[j]? = some n) :
    (i, j) ∈ links nodes edges ↔ Leads edges m n := by
  rw [mem_links]
  simp only [indexOf?_eq_some_iff distinct, hm, hn, Option.some.injEq, exists_eq_left', Leads]
  simp only [eq_comm]

theorem source_of_link (distinct : (nodes.map Node.id).Nodup) {i j : Nat}
    (h : (i, j) ∈ links nodes edges) : ∃ m ∈ nodes, nodes[i]? = some m := by
  obtain ⟨e, -, hs, -⟩ := (mem_links nodes edges _).1 h
  obtain ⟨m, hm, -⟩ := (indexOf?_eq_some_iff distinct _ _).1 hs
  exact ⟨m, List.mem_of_getElem? hm, hm⟩

theorem mem_sortedNodes (n : Node) : n ∈ sortedNodes nodes edges ↔
    ∃ i ∈ topological nodes edges, nodes[i]? = some n := by
  simp [sortedNodes]

theorem place_inj (distinct : (nodes.map Node.id).Nodup) {i j : Nat} {n : Node}
    (hi : nodes[i]? = some n) (hj : nodes[j]? = some n) : i = j :=
  (List.getElem?_inj (List.getElem?_eq_some_iff.1 hi).1 distinct.of_map).1 (hi.trans hj.symm)

theorem sortedNodes_arranged (edges : List Edge) (distinct : (nodes.map Node.id).Nodup) :
    Arranged nodes edges (sortedNodes nodes edges) := by
  obtain ⟨hnodup, hmem, hforward⟩ := topological_sorted nodes edges
  refine ⟨?_, fun n => ?_, fun pre post n h m hm hlead => ?_⟩
  · exact hnodup.filterMap fun i j n hi hj => place_inj distinct hi hj
  · rw [mem_sortedNodes]
    constructor
    · rintro ⟨i, hi, hn⟩
      refine ⟨List.mem_of_getElem? hn, fun m hm hlead => ?_⟩
      obtain ⟨j, hj⟩ := List.mem_iff_getElem?.1 hm
      have hlink := (mem_links_iff distinct hj hn).2 hlead
      exact (mem_sortedNodes m).2 ⟨j, ((hmem i).1 hi).2 j hlink, hj⟩
    · rintro ⟨hn, hall⟩
      obtain ⟨i, hi⟩ := List.mem_iff_getElem?.1 hn
      refine ⟨i, (hmem i).2 ⟨(List.getElem?_eq_some_iff.1 hi).1, fun j hlink => ?_⟩, hi⟩
      obtain ⟨m, hm, hj⟩ := source_of_link distinct hlink
      obtain ⟨k, hk, hkm⟩ :=
        (mem_sortedNodes m).1 (hall m hm ((mem_links_iff distinct hj hi).1 hlink))
      exact place_inj distinct hkm hj ▸ hk
  · obtain ⟨opre, orest, ho, hpre, hrest⟩ := List.filterMap_eq_append_iff.1 h
    obtain ⟨onone, i, opost, rfl, hnone, hi, -⟩ := List.filterMap_eq_cons_iff.1 hrest
    obtain ⟨j, hj⟩ := List.mem_iff_getElem?.1 hm
    have hlink := (mem_links_iff distinct hj hi).2 hlead
    have hsplit : topological nodes edges = (opre ++ onone) ++ i :: opost := by
      rw [ho, List.append_assoc]
    rw [← hpre, List.mem_filterMap]
    rcases List.mem_append.1 (hforward _ _ i hsplit j hlink) with hjpre | hjnone
    · exact ⟨j, hjpre, hj⟩
    · rw [hnone j hjnone] at hj
      cases hj

/-- What holds of an entry once it holds of those before it holds of all entries. -/
theorem forall_of_prefix {α : Type} {P : α → Prop} {l : List α}
    (h : ∀ pre a post, l = pre ++ a :: post → (∀ b ∈ pre, P b) → P a) : ∀ a ∈ l, P a := by
  have hprefix (pre : List α) : ∀ post, l = pre ++ post → ∀ a ∈ pre, P a := by
    induction pre using List.reverseRecOn with
    | nil => simp
    | append_singleton pre a ih =>
      intro post hl b hb
      rw [List.append_assoc, List.singleton_append] at hl
      rcases List.mem_append.1 hb with hb | hb
      · exact ih _ hl b hb
      · rw [List.mem_singleton.1 hb]
        exact h pre a post hl (ih _ hl)
  exact hprefix l [] (List.append_nil l).symm

/-- Which nodes are sorted is up to the nodes and edges there are; without some of the edges there
are no fewer. -/
theorem Arranged.subset {edges' : List Edge} (h : Arranged nodes edges ns)
    (h' : Arranged nodes' edges' ns') (hmem : ∀ n, n ∈ nodes ↔ n ∈ nodes')
    (hedges : edges' ⊆ edges) : ns ⊆ ns' := by
  refine forall_of_prefix fun pre n post hns hpre => ?_
  have hn : n ∈ nodes := ((h.mem_iff n).1 (by simp [hns])).1
  refine (h'.mem_iff n).2 ⟨(hmem n).1 hn, fun m hm hlead => ?_⟩
  obtain ⟨e, he, hends⟩ := hlead
  exact hpre m (h.forward pre post n hns m ((hmem m).2 hm) ⟨e, hedges he, hends⟩)

/-- Of a part of a patch the same nodes are sorted as in the whole, if each edge into one of them
comes from the part or from a node that is sorted in the whole. -/
theorem Arranged.mem_iff_part {edges' : List Edge} (h : Arranged nodes edges ns)
    (h' : Arranged nodes' edges' ns') (hnodes : nodes' ⊆ nodes) (hedges : edges' ⊆ edges)
    (hlead : ∀ n ∈ nodes', ∀ m ∈ nodes, Leads edges m n →
      m ∈ ns ∨ m ∈ nodes' ∧ Leads edges' m n) {n : Node} (hn : n ∈ nodes') :
    n ∈ ns ↔ n ∈ ns' := by
  have hpart : ∀ n ∈ ns, n ∈ nodes' → n ∈ ns' := by
    refine forall_of_prefix fun pre n post hns hpre hn => ?_
    refine (h'.mem_iff n).2 ⟨hn, fun m hm hleads => ?_⟩
    obtain ⟨e, he, hends⟩ := hleads
    exact hpre m (h.forward pre post n hns m (hnodes hm) ⟨e, hedges he, hends⟩) hm
  have hwhole : ∀ n ∈ ns', n ∈ ns := by
    refine forall_of_prefix fun pre n post hns hpre => ?_
    have hn : n ∈ nodes' := ((h'.mem_iff n).1 (by simp [hns])).1
    refine (h.mem_iff n).2 ⟨hnodes hn, fun m hm hleads => ?_⟩
    rcases hlead n hn m hm hleads with hsorted | ⟨hm', hleads'⟩
    · exact hsorted
    · exact hpre m (h'.forward pre post n hns m hm' hleads')
  exact ⟨fun hmem => hpart n hmem hn, hwhole n⟩

theorem Arranged.perm (h : Arranged nodes edges ns) (h' : Arranged nodes' edges ns')
    (hmem : ∀ n, n ∈ nodes ↔ n ∈ nodes') : ns.Perm ns' :=
  (List.perm_ext_iff_of_nodup h.nodup h'.nodup).2 fun _ =>
    ⟨fun hn => h.subset h' hmem (List.Subset.refl _) hn,
      fun hn => h'.subset h (fun n => (hmem n).symm) (List.Subset.refl _) hn⟩

end Order

end Patchbay
