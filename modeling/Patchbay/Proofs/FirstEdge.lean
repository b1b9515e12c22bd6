import Mathlib
import Patchbay.Proofs.NodeOrder
import Patchbay.Proofs.WellFormed

/-!
# First edges

Of several edges into an inlet the check calls all but the first ignored. What flows into the inlet
is indeed up to the first alone, but in the order of evaluation every edge counts: an ignored edge
that closes a cycle takes the nodes behind it out of the target. It is harmless where it does not.
-/

set_option autoImplicit false

namespace Patchbay

namespace Check

/-- The edges of which the check does not say that they are ignored. -/
def heeded (met : List Edge) : List Edge → List Edge
  | [] => []
  | e :: rest =>
    if fedBefore met e = [] then e :: heeded (met ++ [e]) rest else heeded (met ++ [e]) rest

theorem heeded_sublist (es met : List Edge) : (heeded met es).Sublist es := by
  induction es generalizing met with
  | nil => exact .slnil
  | cons e es ih =>
    rw [heeded]
    split
    · exact (ih _).cons_cons e
    · exact (ih _).cons e

theorem find?_heeded {node inlet : String} (es met : List Edge)
    (hmet : met.find? (·.feeds node inlet) = none) :
    (heeded met es).find? (·.feeds node inlet) = es.find? (·.feeds node inlet) := by
  induction es generalizing met with
  | nil => rfl
  | cons e es ih =>
    by_cases hfeeds : e.feeds node inlet = true
    · have hinlet := (e.feeds_iff node inlet).1 hfeeds
      rw [Edge.inlet, Prod.mk.injEq] at hinlet
      have hfirst : fedBefore met e = [] := by
        rw [fedBefore, hinlet.1, hinlet.2, hmet]
      rw [heeded, if_pos hfirst]
      simp only [List.find?_cons, hfeeds]
    · have hrest := ih (met ++ [e]) (by simp [hmet, hfeeds])
      rw [Bool.not_eq_true] at hfeeds
      rw [heeded]
      split
      · simp only [List.find?_cons, hfeeds, hrest]
      · simp only [List.find?_cons, hfeeds, hrest]

end Check

open Relation

/-- Edges lead all the way from one node to another. -/
def Reaches (edges : List Edge) : String → String → Prop :=
  ReflTransGen fun s t => ∃ e ∈ edges, e.source = s ∧ e.target = t

theorem Reaches.head {edges : List Edge} {e : Edge} (he : e ∈ edges) {id : String}
    (h : Reaches edges e.target id) : Reaches edges e.source id :=
  ReflTransGen.head ⟨e, he, rfl, rfl⟩ h

namespace Compile

variable {nodes : List Node} {edges : List Edge}

theorem channels_congr {outlets outlets' : OutletMap} {sink : String}
    (h : outlets.find? sink = outlets'.find? sink) :
    channels outlets sink = channels outlets' sink := by
  simp only [channels, channel, h]

/-- The edges that the check calls ignored can go without a change of the target, if no node that
is heard is in the order only for want of them. -/
theorem patch_heeded (registry : Registry) (nodes : List Node) (edges : List Edge)
    (distinct : (nodes.map Node.id).Nodup)
    (hkept : ∀ sink, findSink? registry nodes = some sink →
      ∀ n ∈ Order.sortedNodes nodes (Check.heeded [] edges),
        Reaches (Check.heeded [] edges) n.id sink.id → n ∈ Order.sortedNodes nodes edges) :
    (patch registry .bare nodes (Check.heeded [] edges)).target =
      (patch registry .bare nodes edges).target := by
  rw [patch, patch]
  cases hs : findSink? registry nodes with
  | none => rfl
  | some sink =>
    have harranged := Order.sortedNodes_arranged (Check.heeded [] edges) distinct
    have hmem (n : Node) (hn : Reaches (Check.heeded [] edges) n.id sink.id) :
        n ∈ Order.sortedNodes nodes (Check.heeded [] edges) ↔ n ∈ Order.sortedNodes nodes edges := by
      constructor
      · intro hsorted
        exact hkept sink hs n hsorted hn
      · intro hsorted
        exact (Order.sortedNodes_arranged edges distinct).subset harranged (fun _ => Iff.rfl)
          (Check.heeded_sublist edges []).subset hsorted
    have hfind : (compileAll registry nodes (Check.heeded [] edges)
        (Order.topological nodes (Check.heeded [] edges))).outlets.find? sink.id =
          (compileAll registry nodes edges (Order.topological nodes edges)).outlets.find? sink.id :=
      settled_agree (fun id => Reaches (Check.heeded [] edges) id sink.id)
        (clear_of_arranged distinct harranged) (compileAll_settled registry _ distinct)
        (compileAll_settled registry edges distinct) hmem
        (fun id _ inlet => Check.find?_heeded edges [] rfl) (fun e he => Reaches.head he) .refl
    show some (channels _ sink.id) = some (channels _ sink.id)
    rw [channels_congr hfind]

/-- A second number into a gain is harmless. -/
theorem patch_heeded_spare :
    let nodes : List Node := [.new "m" "number", .new "n" "number", .new "g" "gain",
      .new "out" "output"]
    let edges : List Edge := [⟨"e1", "n", "signal", "g", "input"⟩,
      ⟨"e2", "m", "signal", "g", "input"⟩, ⟨"e3", "g", "signal", "out", "left"⟩]
    (nodes.map Node.id).Nodup ∧
      Check.patch .builtin ⟨nodes, edges⟩ = [.inletFedTwice "g" "input" "e1" "e2"] ∧
      (patch .builtin .bare nodes (Check.heeded [] edges)).target =
        (patch .builtin .bare nodes edges).target := by
  intro nodes edges
  refine ⟨by decide, by decide, patch_heeded _ _ _ (by decide) ?_⟩
  intro sink _ n hn _
  rw [Order.mem_sortedNodes] at hn ⊢
  have hsame : (Order.topological nodes (Check.heeded [] edges)).Perm
      (Order.topological nodes edges) := by
    decide
  obtain ⟨i, hi, hplace⟩ := hn
  exact ⟨i, hsame.mem_iff.1 hi, hplace⟩

/-- A gain that feeds itself through an ignored edge is not heard; without the edge it is. -/
theorem patch_heeded_loop :
    let nodes : List Node := [.new "n" "number", .new "g" "gain", .new "out" "output"]
    let edges : List Edge := [⟨"e1", "n", "signal", "g", "input"⟩,
      ⟨"e2", "g", "signal", "g", "input"⟩, ⟨"e3", "g", "signal", "out", "left"⟩]
    (nodes.map Node.id).Nodup ∧
      Check.patch .builtin ⟨nodes, edges⟩ = [.inletFedTwice "g" "input" "e1" "e2"] ∧
      (patch .builtin .bare nodes (Check.heeded [] edges)).target ≠
        (patch .builtin .bare nodes edges).target := by
  intro nodes edges
  refine ⟨by decide, by decide, fun h => ?_⟩
  have hscope := congrArg (fun t => t.map fun (t : RenderTarget) => t.left.label.scope) h
  exact absurd hscope (by decide)

end Compile

end Patchbay
