import Mathlib
import Patchbay.Preset.Check

/-!
# Well-formed patches

No id is given twice, edges run between nodes, and an inlet is fed by one of them at most. These
are the problems of a patch that do not depend on the node types there are, and a check finds none
of them exactly if the patch is well formed.
-/

set_option autoImplicit false

namespace Patchbay

/-- The inlet an edge leads to. -/
def Edge.inlet (e : Edge) : String × String := (e.target, e.targetHandle)

theorem Edge.feeds_iff (e : Edge) (node inlet : String) :
    e.feeds node inlet = true ↔ e.inlet = (node, inlet) := by
  simp [Edge.feeds, Edge.inlet]

structure WellFormed (p : Patch) : Prop where
  nodeIds : (p.nodes.map Node.id).Nodup
  edgeIds : (p.edges.map Edge.id).Nodup
  ends : ∀ e ∈ p.edges, e.source ∈ p.nodes.map Node.id ∧ e.target ∈ p.nodes.map Node.id
  inlets : (p.edges.map Edge.inlet).Nodup

/-- A problem of the document itself. -/
def Problem.Structural : Problem → Prop
  | .duplicateNode _ => True
  | .duplicateEdge _ => True
  | .danglingEdge _ _ => True
  | .inletFedTwice _ _ _ _ => True
  | _ => False

namespace Check

variable {registry : Registry}

/-- A list of problems without structural ones. -/
def Clean (ps : List Problem) : Prop := ∀ q ∈ ps, ¬q.Structural

theorem clean_nil : Clean [] := by simp [Clean]

theorem clean_append (ps qs : List Problem) : Clean (ps ++ qs) ↔ Clean ps ∧ Clean qs :=
  List.forall_mem_append

theorem clean_singleton (q : Problem) : Clean [q] ↔ ¬q.Structural := by simp [Clean]

theorem clean_flatMap {α : Type} {f : α → List Problem} (h : ∀ a, Clean (f a)) (l : List α) :
    Clean (l.flatMap f) := by
  intro q hq
  obtain ⟨a, -, hq⟩ := List.mem_flatMap.1 hq
  exact h a q hq

theorem clean_inlet (n : Node) (i : Inlet) : Clean (inlet n i) := by
  rw [inlet]
  split
  · split
    · exact clean_nil
    · exact (clean_singleton _).2 id
  · exact clean_nil

theorem clean_setting (n : Node) (s : Setting) : Clean (setting n s) := by
  rw [setting]
  split
  · exact clean_nil
  · split
    · exact clean_nil
    · exact (clean_singleton _).2 id
  · split
    · exact clean_nil
    · exact (clean_singleton _).2 id

theorem clean_node (n : Node) : Clean (node registry n) := by
  rw [node]
  split
  · exact (clean_singleton _).2 id
  · exact (clean_append _ _).2 ⟨clean_flatMap (clean_inlet n) _, clean_flatMap (clean_setting n) _⟩

theorem clean_nodes (ns : List Node) (met : List String) :
    Clean (nodes registry met ns) ↔
      (ns.map Node.id).Nodup ∧ ∀ n ∈ ns, n.id ∉ met := by
  induction ns generalizing met with
  | nil => simp [nodes, clean_nil]
  | cons n ns ih =>
    have hfirst : Clean (if met.contains n.id then [.duplicateNode n.id] else []) ↔ n.id ∉ met := by
      split
      · next h => simpa [clean_singleton, Problem.Structural] using h
      · next h => simpa [clean_nil] using h
    rw [nodes, clean_append, clean_append, hfirst, ih, List.map_cons, List.nodup_cons,
      List.forall_mem_cons]
    simp only [clean_node, and_true, List.mem_cons, not_or, List.mem_map]
    constructor
    · rintro ⟨hn, hnodup, hmet⟩
      refine ⟨⟨?_, hnodup⟩, hn, fun m hm => (hmet m hm).2⟩
      rintro ⟨m, hm, hid⟩
      exact (hmet m hm).1 hid
    · rintro ⟨⟨hnot, hnodup⟩, hn, hmet⟩
      exact ⟨hn, hnodup, fun m hm => ⟨fun hid => hnot ⟨m, hm, hid⟩, hmet m hm⟩⟩

theorem clean_endpoint (ns : List Node) (e : Edge) (id : String) {lacks : NodeInfo → Bool}
    {missing : String → Problem} (hm : ∀ type, ¬(missing type).Structural) :
    Clean (endpoint registry ns e id lacks missing) ↔ id ∈ ns.map Node.id := by
  rw [endpoint, endpoint?]
  cases hf : ns.reverse.find? (·.id = id) with
  | none =>
    have hnot : id ∉ ns.map Node.id := by
      rw [List.find?_eq_none] at hf
      rintro hid
      obtain ⟨n, hn, rfl⟩ := List.mem_map.1 hid
      simpa using hf n (by simpa using hn)
    simp [clean_singleton, Problem.Structural, hnot]
  | some n =>
    have hid : n.id = id := by simpa using List.find?_some hf
    have hmem : id ∈ ns.map Node.id := by
      rw [← hid]
      exact List.mem_map_of_mem (List.mem_reverse.1 (List.mem_of_find?_eq_some hf))
    simp only [hmem, iff_true]
    split
    · split
      · exact (clean_singleton _).2 (hm _)
      · exact clean_nil
    · exact clean_nil

theorem clean_edge (ns : List Node) (e : Edge) : Clean (edge registry ns e) ↔
    e.source ∈ ns.map Node.id ∧ e.target ∈ ns.map Node.id := by
  rw [edge, clean_append, clean_endpoint ns e e.source fun _ => id,
    clean_endpoint ns e e.target fun _ => id]

theorem clean_fedBefore (met : List Edge) (e : Edge) :
    Clean (fedBefore met e) ↔ ∀ f ∈ met, f.inlet ≠ e.inlet := by
  rw [fedBefore]
  cases hf : met.find? (·.feeds e.target e.targetHandle) with
  | none =>
    rw [List.find?_eq_none] at hf
    simp only [clean_nil, true_iff]
    exact fun f hmem hfeeds => hf f hmem ((Edge.feeds_iff f _ _).2 hfeeds)
  | some f =>
    have hsome : f.feeds e.target e.targetHandle = true := by simpa using List.find?_some hf
    have hfeeds := (Edge.feeds_iff f _ _).1 hsome
    simp only [clean_singleton, Problem.Structural, not_true_eq_false, false_iff, not_forall]
    exact ⟨f, List.mem_of_find?_eq_some hf, fun h => h hfeeds⟩

/-- Two edges that can be in one patch, the first before the second. -/
def Apart (f e : Edge) : Prop := f.id ≠ e.id ∧ f.inlet ≠ e.inlet

theorem clean_edges (ns : List Node) (es met : List Edge) : Clean (edges registry ns met es) ↔
    (∀ e ∈ es, e.source ∈ ns.map Node.id ∧ e.target ∈ ns.map Node.id) ∧
      (∀ f ∈ met, ∀ e ∈ es, Apart f e) ∧ es.Pairwise Apart := by
  induction es generalizing met with
  | nil => simp [edges, clean_nil]
  | cons e es ih =>
    have hfirst : Clean (if met.any (·.id = e.id) then [.duplicateEdge e.id] else []) ↔
        ∀ f ∈ met, f.id ≠ e.id := by
      split
      · next h => simpa [clean_singleton, Problem.Structural] using h
      · next h => simpa [clean_nil] using h
    rw [edges, clean_append, clean_append, clean_append, hfirst, clean_edge, clean_fedBefore, ih]
    simp only [List.forall_mem_cons, List.pairwise_cons, List.mem_append, List.mem_singleton]
    constructor
    · rintro ⟨⟨⟨hid, hends⟩, hfed⟩, hrest, hmet, hpair⟩
      exact ⟨⟨hends, hrest⟩, fun f hf => ⟨⟨hid f hf, hfed f hf⟩, hmet f (.inl hf)⟩,
        hmet e (.inr rfl), hpair⟩
    · rintro ⟨⟨hends, hrest⟩, hmet, he, hpair⟩
      refine ⟨⟨⟨fun f hf => (hmet f hf).1.1, hends⟩, fun f hf => (hmet f hf).1.2⟩, hrest, ?_, hpair⟩
      rintro f (hf | rfl)
      · exact (hmet f hf).2
      · exact he

/-- A check of a patch, whatever node types there are, reports a structural problem exactly if the
patch is not well formed. -/
theorem clean_patch (p : Patch) : Clean (patch registry p) ↔ WellFormed p := by
  have hsink : Clean (if hasSink registry p.nodes then [] else [.missingSink]) := by
    split
    · exact clean_nil
    · exact (clean_singleton _).2 id
  have hpair : p.edges.Pairwise Apart ↔
      (p.edges.map Edge.id).Nodup ∧ (p.edges.map Edge.inlet).Nodup := by
    rw [List.Nodup, List.Nodup, List.pairwise_map, List.pairwise_map]
    exact List.pairwise_and_iff
  rw [patch, clean_append, clean_append, clean_nodes, clean_edges, hpair]
  constructor
  · rintro ⟨⟨⟨hnodes, -⟩, -⟩, hends, -, hids, hinlets⟩
    exact ⟨hnodes, hids, hends, hinlets⟩
  · rintro ⟨hnodes, hids, hends, hinlets⟩
    exact ⟨⟨⟨hnodes, by simp⟩, hsink⟩, hends, by simp, hids, hinlets⟩

end Check

end Patchbay
