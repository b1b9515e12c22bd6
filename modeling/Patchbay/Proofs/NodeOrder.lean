import Mathlib
import Patchbay.NodeType.Builtin
import Patchbay.Proofs.Outlets

/-!
# The order of the nodes does not matter

Sorting, compiling, choosing the sink and ordering the orphans all come out the same for a
permuted node list, as long as no id occurs twice.
-/

set_option autoImplicit false

namespace Patchbay

variable {nodes nodes' : List Node} {edges : List Edge} {registry : Registry}

theorem length_sortedNodes (nodes : List Node) (edges : List Edge) :
    (Order.sortedNodes nodes edges).length = (Order.topological nodes edges).length := by
  rw [Order.sortedNodes, List.filterMap_length_eq_length]
  intro i hi
  have hlt := (((Order.topological_sorted nodes edges).mem_iff i).1 hi).1
  simp [List.getElem?_eq_getElem hlt]

theorem sortedNodes_perm (edges : List Edge) (distinct : (nodes.map Node.id).Nodup)
    (h : nodes.Perm nodes') :
    (Order.sortedNodes nodes edges).Perm (Order.sortedNodes nodes' edges) :=
  (Order.sortedNodes_arranged edges distinct).perm
    (Order.sortedNodes_arranged edges ((h.map Node.id).nodup_iff.1 distinct)) fun _ => h.mem_iff

namespace Compile

/-- What is left behind in the end is up to which nodes are sorted and which edges come first into
their inlets. -/
theorem compileAll_unique {edges' : List Edge} (distinct : (nodes.map Node.id).Nodup)
    (distinct' : (nodes'.map Node.id).Nodup) (hlength : nodes.length = nodes'.length)
    (hperm : (Order.sortedNodes nodes edges).Perm (Order.sortedNodes nodes' edges'))
    (hfind : ∀ id inlet, edges.find? (·.feeds id inlet) = edges'.find? (·.feeds id inlet)) :
    compileAll registry nodes edges (Order.topological nodes edges) =
      compileAll registry nodes' edges' (Order.topological nodes' edges') := by
  have hdropped : nodes'.length - (Order.topological nodes' edges').length =
      nodes.length - (Order.topological nodes edges).length := by
    rw [← length_sortedNodes, ← length_sortedNodes, hlength, hperm.length_eq]
  have hc := clear_of_arranged distinct (Order.sortedNodes_arranged edges distinct)
  have hs' := compileAll_settled registry edges' distinct'
  rw [hdropped] at hs'
  exact settled_unique hc (compileAll_settled registry edges distinct) hs' hfind hperm

theorem compileAll_perm (distinct : (nodes.map Node.id).Nodup) (h : nodes.Perm nodes') :
    compileAll registry nodes edges (Order.topological nodes edges) =
      compileAll registry nodes' edges (Order.topological nodes' edges) :=
  compileAll_unique distinct ((h.map Node.id).nodup_iff.1 distinct) h.length_eq
    (sortedNodes_perm edges distinct h) fun _ _ => rfl

theorem foldl_smallest (rest : List Node) (n : Node) :
    let best := rest.foldl (fun best m => if m.id < best.id then m else best) n
    best ∈ n :: rest ∧ ∀ m ∈ n :: rest, ¬m.id < best.id := by
  induction rest generalizing n with
  | nil =>
    refine ⟨by simp, fun m hm => ?_⟩
    rw [List.mem_singleton.1 hm]
    exact String.lt_irrefl _
  | cons m rest ih =>
    rw [List.foldl_cons]
    split
    · next hlt =>
      obtain ⟨hmem, hmin⟩ := ih m
      refine ⟨List.mem_cons_of_mem _ hmem, fun l hl => ?_⟩
      rcases List.mem_cons.1 hl with rfl | hl
      · exact fun h => hmin m (by simp) (String.lt_trans hlt h)
      · exact hmin l hl
    · next hnlt =>
      obtain ⟨hmem, hmin⟩ := ih n
      refine ⟨?_, fun l hl => ?_⟩
      · rcases List.mem_cons.1 hmem with h | h
        · rw [h]
          exact List.mem_cons_self
        · exact List.mem_cons_of_mem _ (List.mem_cons_of_mem _ h)
      · rcases List.mem_cons.1 hl with rfl | hl
        · exact hmin l (by simp)
        · rcases List.mem_cons.1 hl with rfl | hl
          · exact fun h => hmin n (by simp) (lt_of_le_of_lt (not_lt.1 hnlt) h)
          · exact hmin l (by simp [hl])

theorem smallest?_spec {ns : List Node} {best : Node} (h : smallest? ns = some best) :
    best ∈ ns ∧ ∀ m ∈ ns, ¬m.id < best.id := by
  cases ns with
  | nil => cases h
  | cons n ns =>
    cases h
    exact foldl_smallest ns n

theorem smallest?_perm (distinct : (nodes.map Node.id).Nodup) (h : nodes.Perm nodes') :
    smallest? nodes = smallest? nodes' := by
  cases hs : smallest? nodes with
  | none =>
    cases nodes with
    | nil => rw [h.nil_eq.symm]; rfl
    | cons n ns => cases hs
  | some best =>
    cases hs' : smallest? nodes' with
    | none =>
      cases nodes' with
      | nil => rw [h.eq_nil] at hs; cases hs
      | cons n ns => cases hs'
    | some best' =>
      obtain ⟨hmem, hmin⟩ := smallest?_spec hs
      obtain ⟨hmem', hmin'⟩ := smallest?_spec hs'
      have hid : best.id = best'.id := le_antisymm (not_lt.1 (hmin _ (h.mem_iff.2 hmem')))
        (not_lt.1 (hmin' _ (h.mem_iff.1 hmem)))
      rw [Order.eq_of_id distinct hmem (h.mem_iff.2 hmem') hid]

theorem smallest?_eq_some (distinct : (nodes.map Node.id).Nodup) {best : Node}
    (hmem : best ∈ nodes) (hmin : ∀ m ∈ nodes, ¬m.id < best.id) : smallest? nodes = some best := by
  cases hs : smallest? nodes with
  | none =>
    cases nodes with
    | nil => cases hmem
    | cons n ns => cases hs
  | some least =>
    obtain ⟨hleast, hless⟩ := smallest?_spec hs
    have hid : least.id = best.id :=
      le_antisymm (not_lt.1 (hless best hmem)) (not_lt.1 (hmin least hleast))
    rw [Order.eq_of_id distinct hleast hmem hid]

/-- A part of the nodes has the same sink, if it has that sink at all. -/
theorem findSink?_part (distinct : (nodes.map Node.id).Nodup) (hsub : nodes'.Sublist nodes)
    {sink : Node} (hs : findSink? registry nodes = some sink) (hmem : sink ∈ nodes') :
    findSink? registry nodes' = some sink := by
  obtain ⟨hsink, hmin⟩ := smallest?_spec hs
  have hfilter := hsub.filter (isSink registry)
  refine smallest?_eq_some (distinct.sublist ((List.filter_sublist.trans hsub).map _)) ?_ ?_
  · exact List.mem_filter.2 ⟨hmem, (List.mem_filter.1 hsink).2⟩
  · exact fun m hm => hmin m (hfilter.subset hm)

theorem findSink?_perm (distinct : (nodes.map Node.id).Nodup) (h : nodes.Perm nodes') :
    findSink? registry nodes = findSink? registry nodes' :=
  smallest?_perm (distinct.sublist (List.filter_sublist.map _)) (h.filter _)

theorem mergeSort_perm_eq (distinct : (nodes.map Node.id).Nodup) (h : nodes.Perm nodes') :
    nodes.mergeSort (fun a b => !(b.id < a.id)) = nodes'.mergeSort (fun a b => !(b.id < a.id)) := by
  have htrans (a b c : Node) (hab : !decide (b.id < a.id)) (hbc : !decide (c.id < b.id)) :
      !decide (c.id < a.id) := by
    simp only [Bool.not_eq_true', decide_eq_false_iff_not, not_lt] at *
    exact hab.trans hbc
  have htotal (a b : Node) : (!decide (b.id < a.id)) || !decide (a.id < b.id) := by
    simp only [Bool.or_eq_true, Bool.not_eq_true', decide_eq_false_iff_not, not_lt]
    exact le_total _ _
  have hsorted (l : List Node) := List.pairwise_mergeSort htrans htotal l
  refine List.Perm.eq_of_pairwise (fun a b ha hb hab hba => ?_) (hsorted nodes) (hsorted nodes')
    ((List.mergeSort_perm nodes _).trans (h.trans (List.mergeSort_perm nodes' _).symm))
  simp only [Bool.not_eq_true', decide_eq_false_iff_not, not_lt] at hab hba
  exact Order.eq_of_id distinct (List.mem_mergeSort.1 ha)
    (h.mem_iff.2 (List.mem_mergeSort.1 hb)) (le_antisymm hab hba)

theorem orphans_perm (distinct : (nodes.map Node.id).Nodup) (h : nodes.Perm nodes') :
    Instrument.orphans nodes edges registry = Instrument.orphans nodes' edges registry :=
  mergeSort_perm_eq (distinct.sublist (List.filter_sublist.map _)) (h.filter _)

/-- A permuted node list compiles to the same: the sink, the statistics, and the target down to
the labels by which its nodes are shared. -/
theorem patch_perm (registry : Registry) (options : CompileOptions) (nodes nodes' : List Node)
    (edges : List Edge) (distinct : (nodes.map Node.id).Nodup) (h : nodes.Perm nodes') :
    patch registry options nodes' edges = patch registry options nodes edges := by
  rw [patch, patch, findSink?_perm distinct h]
  cases findSink? registry nodes' with
  | none => rfl
  | some sink =>
    simp only [instrument, compileAll_perm distinct h, orphans_perm distinct h]

theorem patch_perm_swap :
    let source : Node := ⟨"n", "number", none, .empty⟩
    let sink : Node := ⟨"out", "output", none, .empty⟩
    ([source, sink].map Node.id).Nodup ∧ [source, sink].Perm [sink, source] ∧
      patch .builtin .full [sink, source] [⟨"a", "n", "signal", "out", "left"⟩] =
        patch .builtin .full [source, sink] [⟨"a", "n", "signal", "out", "left"⟩] :=
  ⟨by decide, .swap _ _ _, patch_perm _ _ _ _ _ (by decide) (.swap _ _ _)⟩

end Compile

end Patchbay
