import Mathlib
import Patchbay.Proofs.Injection
import Patchbay.Proofs.WellFormed

/-!
# The order of the edges

As long as no two edges lead into one inlet, it does not matter in which order they are listed:
the same nodes are sorted, each inlet is fed by the same edge and the same visualizers are orphans.
Only the probes are added to the left channel edge by edge, so without them whole targets are the
same, and with them all but the left channel.
-/

set_option autoImplicit false

namespace Patchbay

variable {nodes : List Node} {edges edges' : List Edge} {registry : Registry}

/-- An inlet that is fed once is fed by the same edge in any order. -/
theorem find?_feeds_perm (single : (edges.map Edge.inlet).Nodup) (h : edges.Perm edges')
    (node inlet : String) :
    edges.find? (·.feeds node inlet) = edges'.find? (·.feeds node inlet) := by
  cases hf : edges.find? (·.feeds node inlet) with
  | none =>
    symm
    rw [List.find?_eq_none] at hf ⊢
    intro e he
    exact hf e (h.mem_iff.2 he)
  | some e =>
    have hfeeds : e.feeds node inlet = true := by simpa using List.find?_some hf
    have hinlet := (e.feeds_iff node inlet).1 hfeeds
    have hkey (b : Edge) : b.feeds node inlet = true ↔ b.inlet = e.inlet := by
      rw [b.feeds_iff, hinlet]
    symm
    exact find?_of_distinct ((h.map Edge.inlet).nodup_iff.1 single) hkey
      (h.mem_iff.1 (List.mem_of_find?_eq_some hf))

theorem sortedNodes_edges_perm (distinct : (nodes.map Node.id).Nodup) (h : edges.Perm edges') :
    (Order.sortedNodes nodes edges).Perm (Order.sortedNodes nodes edges') := by
  have harranged := Order.sortedNodes_arranged edges distinct
  have harranged' := Order.sortedNodes_arranged edges' distinct
  rw [List.perm_ext_iff_of_nodup harranged.nodup harranged'.nodup]
  intro n
  constructor
  · intro hn
    exact harranged.subset harranged' (fun _ => Iff.rfl) h.symm.subset hn
  · intro hn
    exact harranged'.subset harranged (fun _ => Iff.rfl) h.subset hn

namespace Compile

theorem compileAll_edges_perm (distinct : (nodes.map Node.id).Nodup)
    (single : (edges.map Edge.inlet).Nodup) (h : edges.Perm edges') :
    compileAll registry nodes edges (Order.topological nodes edges) =
      compileAll registry nodes edges' (Order.topological nodes edges') :=
  compileAll_unique distinct distinct rfl (sortedNodes_edges_perm distinct h)
    (find?_feeds_perm single h)

theorem orphans_edges_perm (registry : Registry) (nodes : List Node) (h : edges.Perm edges') :
    Instrument.orphans nodes edges registry = Instrument.orphans nodes edges' registry := by
  simp only [Instrument.orphans, h.any_eq]

theorem instrument_edges_perm (options : CompileOptions) (p : Pass) (bare : RenderTarget)
    (h : edges.Perm edges') :
    (instrument registry options nodes edges p bare).2 =
      (instrument registry options nodes edges' p bare).2 := by
  simp only [instrument, orphans_edges_perm registry nodes h]
  cases options.probeEdges with
  | false => rfl
  | true => simp only [if_true, Instrument.count_injectProbes, h.countP_eq]

section

variable (registry : Registry) (options : CompileOptions) (distinct : (nodes.map Node.id).Nodup)
  (single : (edges.map Edge.inlet).Nodup) (h : edges.Perm edges')

include distinct single h

/-- Without probes permuted edges into distinct inlets compile to the same, down to the labels by
which the nodes of the target are shared. -/
theorem patch_edges_unprobed (hprobes : options.probeEdges = false) :
    patch registry options nodes edges' = patch registry options nodes edges := by
  rw [patch, patch]
  cases findSink? registry nodes with
  | none => rfl
  | some sink =>
    simp only [compileAll_edges_perm distinct single h, instrument, hprobes,
      orphans_edges_perm registry nodes h]
    rfl

/-- The bare target is the same for permuted edges, and so are, whatever is added to the left
channel, the sink, the statistics and the right channel. -/
theorem patch_edges_perm :
    (patch registry .bare nodes edges').target = (patch registry .bare nodes edges).target ∧
      (patch registry options nodes edges').sink = (patch registry options nodes edges).sink ∧
      (patch registry options nodes edges').stats = (patch registry options nodes edges).stats ∧
      (patch registry options nodes edges').target.map RenderTarget.right =
        (patch registry options nodes edges).target.map RenderTarget.right := by
  refine ⟨by rw [patch_edges_unprobed registry .bare distinct single h rfl], ?_⟩
  rw [patch, patch]
  cases findSink? registry nodes with
  | none => exact ⟨rfl, rfl, rfl⟩
  | some sink =>
    simp only [compileAll_edges_perm distinct single h, instrument_edges_perm options _ _ h,
      true_and]
    rfl

end

/-- The edges into both sides of the sink, one of them from a cycle that is dropped. -/
theorem patch_edges_perm_sides :
    let nodes : List Node := [.new "n" "number", .new "g" "gain", .new "out" "output"]
    let a : Edge := ⟨"e1", "n", "signal", "out", "left"⟩
    let b : Edge := ⟨"e2", "g", "signal", "g", "input"⟩
    let c : Edge := ⟨"e3", "n", "signal", "out", "right"⟩
    let edges := [a, b, c]
    let edges' := [c, b, a]
    (nodes.map Node.id).Nodup ∧ (edges.map Edge.inlet).Nodup ∧ edges.Perm edges' ∧
      (patch .builtin .bare nodes edges').target = (patch .builtin .bare nodes edges).target ∧
      (patch .builtin .full nodes edges').sink = (patch .builtin .full nodes edges).sink ∧
      (patch .builtin .full nodes edges').stats = (patch .builtin .full nodes edges).stats ∧
      (patch .builtin .full nodes edges').target.map RenderTarget.right =
        (patch .builtin .full nodes edges).target.map RenderTarget.right := by
  intro nodes a b c edges edges'
  have hperm : edges.Perm edges' := by decide
  exact ⟨by decide, by decide, hperm,
    patch_edges_perm .builtin .full (by decide) (by decide) hperm⟩

end Compile

end Patchbay
