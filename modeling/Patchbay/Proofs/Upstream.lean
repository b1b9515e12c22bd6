import Mathlib
import Patchbay.Proofs.FirstEdge

/-!
# What is upstream of the sink

Only the nodes from which edges lead to the sink have a part in what is heard. A patch that is cut
down to them, and to the edges into them, compiles to the same target: cycles, unknown types and
failing nodes elsewhere make no difference.
-/

set_option autoImplicit false

namespace Patchbay

open Relation

/-- Edges lead from a node, by way of other nodes, to the sink. -/
def Upstream (nodes : List Node) (edges : List Edge) (sink n : Node) : Prop :=
  ReflTransGen (fun m n => m ∈ nodes ∧ Order.Leads edges m n) n sink

theorem Upstream.head {nodes : List Node} {edges : List Edge} {sink m n : Node} {e : Edge}
    (h : Upstream nodes edges sink n) (hm : m ∈ nodes) (he : e ∈ edges)
    (hends : e.source = m.id ∧ e.target = n.id) : Upstream nodes edges sink m :=
  ReflTransGen.head (b := n) ⟨hm, e, he, hends⟩ h

theorem Upstream.mem_of_closed {nodes : List Node} {edges : List Edge} {sink n : Node}
    {ids : List String} (h : Upstream nodes edges sink n) (hsink : sink.id ∈ ids)
    (hclosed : ∀ e ∈ edges, e.target ∈ ids → e.source ∈ ids) : n.id ∈ ids := by
  induction h using ReflTransGen.head_induction_on with
  | refl => exact hsink
  | head hstep _ ih =>
    obtain ⟨-, e, he, hs, ht⟩ := hstep
    rw [← hs]
    exact hclosed e he (ht ▸ ih)

namespace Compile

variable {nodes kept : List Node} {edges : List Edge} {sink : Node}

/-- The edges into some nodes. -/
def edgesInto (nodes : List Node) (edges : List Edge) : List Edge :=
  edges.filter fun e => e.target ∈ nodes.map Node.id

theorem leads_edgesInto {m n : Node} (hn : n ∈ kept) (h : Order.Leads edges m n) :
    Order.Leads (edgesInto kept edges) m n := by
  obtain ⟨e, he, hs, ht⟩ := h
  refine ⟨e, List.mem_filter.2 ⟨he, ?_⟩, hs, ht⟩
  rw [decide_eq_true_eq, ht]
  exact List.mem_map_of_mem hn

theorem find?_edgesInto {node : String} (h : node ∈ kept.map Node.id) (inlet : String) :
    (edgesInto kept edges).find? (·.feeds node inlet) = edges.find? (·.feeds node inlet) := by
  rw [edgesInto, List.find?_filter]
  congr 1
  funext e
  by_cases hfeeds : e.feeds node inlet = true
  · simp only [Edge.feeds, Bool.and_eq_true, decide_eq_true_eq] at hfeeds
    simp [Edge.feeds, hfeeds.1, hfeeds.2, h]
  · simp [hfeeds]

open Classical in
/-- Cut down to what is upstream of the sink a patch has the same target, and the same nodes of it
are shared. -/
theorem patch_upstream (registry : Registry) (nodes : List Node) (edges : List Edge)
    (distinct : (nodes.map Node.id).Nodup) (sink : Node)
    (hsink : findSink? registry nodes = some sink) :
    let kept := nodes.filter fun n => Upstream nodes edges sink n
    (patch registry .bare kept (edgesInto kept edges)).target =
      (patch registry .bare nodes edges).target := by
  intro kept
  have hsub : kept.Sublist nodes := List.filter_sublist
  have hmem (n : Node) : n ∈ kept ↔ n ∈ nodes ∧ Upstream nodes edges sink n := by
    simp [kept]
  have hback (m n : Node) (hm : m ∈ nodes) (hn : n ∈ kept) (h : Order.Leads edges m n) :
      m ∈ kept := by
    obtain ⟨e, he, hends⟩ := h
    exact (hmem m).2 ⟨hm, ((hmem n).1 hn).2.head hm he hends⟩
  have hkept : sink ∈ kept :=
    (hmem sink).2 ⟨(List.mem_filter.1 (smallest?_spec hsink).1).1, .refl⟩
  have distinct' : (kept.map Node.id).Nodup := distinct.sublist (hsub.map _)
  have harranged := Order.sortedNodes_arranged edges distinct
  have harranged' := Order.sortedNodes_arranged (edgesInto kept edges) distinct'
  have hsorted (n : Node) (hn : n ∈ kept) : n ∈ Order.sortedNodes nodes edges ↔
      n ∈ Order.sortedNodes kept (edgesInto kept edges) :=
    harranged.mem_iff_part harranged' hsub.subset List.filter_sublist.subset
      (fun n hn m hm h => .inr ⟨hback m n hm hn h, leads_edgesInto hn h⟩) hn
  -- ids without a node count as upstream as well: nothing is ever found under them
  let part (id : String) : Prop := ∀ n ∈ nodes, n.id = id → n ∈ kept
  have hfind : (compileAll registry nodes edges
      (Order.topological nodes edges)).outlets.find? sink.id =
        (compileAll registry kept (edgesInto kept edges)
          (Order.topological kept (edgesInto kept edges))).outlets.find? sink.id := by
    refine settled_agree_on part (clear_of_arranged distinct harranged)
      (compileAll_settled registry edges distinct) (compileAll_settled registry _ distinct')
      (fun n hpart => ?_) (fun n hn hpart hsources inlet => ?_) ?_
    · constructor
      · intro hn
        exact (hsorted n (hpart n ((harranged.mem_iff n).1 hn).1 rfl)).1 hn
      · intro hn
        exact (hsorted n ((harranged'.mem_iff n).1 hn).1).2 hn
    · have hn' : n ∈ kept := hpart n ((harranged.mem_iff n).1 hn).1 rfl
      rw [← Resolve.connection?_edges (find?_edgesInto (List.mem_map_of_mem hn') inlet.name).symm]
      refine Resolve.connection?_congr (fun e he ht => hsources e he ht fun m hm hs => ?_) inlet
      exact hback m n hm hn' ⟨e, he, hs.symm, ht⟩
    · intro n hn hid
      have hsame : n = sink := Order.eq_of_id distinct hn (hsub.subset hkept) hid
      exact hsame ▸ hkept
  rw [patch, patch, hsink, findSink?_part distinct hsub hsink hkept]
  show some (channels _ sink.id) = some (channels _ sink.id)
  rw [channels_congr hfind]

open Classical in
/-- Heard are a number and a gain; beside them stand a node of no known type, two gains that feed
each other and a second output. -/
theorem patch_upstream_beside :
    let number : Node := .new "n" "number"
    let gain : Node := .new "g" "gain"
    let sink : Node := .new "out" "output"
    let nodes : List Node := [.new "a" "gain", number, .new "m" "mystery", gain, .new "b" "gain",
      sink, .new "out2" "output"]
    let edges : List Edge := [⟨"ab", "a", "signal", "b", "input"⟩, ⟨"ba", "b", "signal", "a", "input"⟩,
      ⟨"nm", "n", "signal", "m", "input"⟩, ⟨"ng", "n", "signal", "g", "input"⟩,
      ⟨"heard", "g", "signal", "out", "left"⟩, ⟨"through", "out", "left", "out2", "left"⟩,
      ⟨"loose", "nowhere", "signal", "g", "gain"⟩]
    let kept : List Node := [number, gain, sink]
    (nodes.map Node.id).Nodup ∧ findSink? .builtin nodes = some sink ∧
      (∀ n ∈ nodes, Upstream nodes edges sink n ↔ n.id ∈ kept.map Node.id) ∧
      (patch .builtin .bare kept (edgesInto kept edges)).target =
        (patch .builtin .bare nodes edges).target := by
  intro number gain sink nodes edges kept
  have hleast : smallest? [sink, .new "out2" "output"] = some sink :=
    smallest?_eq_some (by decide) (by simp) (by decide)
  have hfind : findSink? .builtin nodes = some sink := hleast
  have distinct : (nodes.map Node.id).Nodup := by decide
  have hsink : Upstream nodes edges sink sink := .refl
  have hgain : Upstream nodes edges sink gain :=
    hsink.head (e := ⟨"heard", "g", "signal", "out", "left"⟩) (by simp [nodes]) (by simp [edges])
      ⟨rfl, rfl⟩
  have hnumber : Upstream nodes edges sink number :=
    hgain.head (e := ⟨"ng", "n", "signal", "g", "input"⟩) (by simp [nodes]) (by simp [edges])
      ⟨rfl, rfl⟩
  have hupstream : ∀ n ∈ nodes, Upstream nodes edges sink n ↔ n.id ∈ kept.map Node.id := by
    intro n hn
    constructor
    · intro h
      have hmem : n.id ∈ "nowhere" :: kept.map Node.id := h.mem_of_closed (by decide) (by decide)
      have hnowhere : "nowhere" ∉ nodes.map Node.id := by decide
      rcases List.mem_cons.1 hmem with hid | hid
      · exact absurd (hid ▸ List.mem_map_of_mem hn) hnowhere
      · exact hid
    · intro hid
      obtain ⟨m, hm, hid⟩ := List.mem_map.1 hid
      have hsub : kept ⊆ nodes := by simp [kept, nodes]
      rw [← Order.eq_of_id distinct (hsub hm) hn hid]
      simp only [kept, List.mem_cons, List.not_mem_nil, or_false] at hm
      rcases hm with rfl | rfl | rfl
      · exact hnumber
      · exact hgain
      · exact hsink
  have hkept : nodes.filter (fun n => Upstream nodes edges sink n) = kept := by
    have hids (n : Node) (hn : n ∈ nodes) :
        decide (Upstream nodes edges sink n) = (kept.map Node.id).contains n.id := by
      rw [Bool.eq_iff_iff, decide_eq_true_iff, hupstream n hn, List.contains_iff_mem]
    rw [List.filter_congr hids]
    rfl
  have hcut := patch_upstream .builtin nodes edges distinct sink hfind
  rw [hkept] at hcut
  exact ⟨distinct, hfind, hupstream, hcut⟩

end Compile

end Patchbay
