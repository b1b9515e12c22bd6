import Mathlib
import Patchbay.Proofs.Outlets

/-!
# Nodes written another way

All that the compiler takes from a node is its id, its type and what is compiled of it. Nodes that
are rewritten one by one and keep all three leave the whole compilation as it is.
-/

set_option autoImplicit false

namespace Patchbay

namespace Order

variable {nodes : List Node} {f : Node → Node}

theorem topological_map (edges : List Edge) (hf : ∀ n, (f n).id = n.id) :
    topological (nodes.map f) edges = topological nodes edges := by
  have hindex (id : String) : indexOf? (nodes.map f) id = indexOf? nodes id := by
    simp only [indexOf?, List.findIdx?_map, Function.comp_def, hf]
  simp only [topological, links, hindex, List.length_map]

theorem sortedNodes_map (edges : List Edge) (hf : ∀ n, (f n).id = n.id) :
    sortedNodes (nodes.map f) edges = (sortedNodes nodes edges).map f := by
  simp only [sortedNodes, topological_map edges hf, List.map_filterMap, List.getElem?_map]

end Order

namespace Compile

/-- A way to rewrite nodes that is not seen in what is compiled of them. -/
structure Neutral (registry : Registry) (edges : List Edge) (f : Node → Node) : Prop where
  id : ∀ n, (f n).id = n.id
  type : ∀ n, (f n).type = n.type
  compiled : ∀ outlets n copy, compileNode registry edges outlets (f n) copy =
    compileNode registry edges outlets n copy

variable {registry : Registry} {edges : List Edge} {f : Node → Node}

theorem smallest?_map (hf : ∀ n, (f n).id = n.id) (ns : List Node) :
    smallest? (ns.map f) = (smallest? ns).map f := by
  cases ns with
  | nil => rfl
  | cons n ns =>
    simp only [List.map_cons, smallest?, Option.map_some, Option.some.injEq]
    induction ns generalizing n with
    | nil => rfl
    | cons m ns ih =>
      simp only [List.map_cons, List.foldl_cons, hf]
      split
      · exact ih m
      · exact ih n

namespace Neutral

variable (h : Neutral registry edges f)

include h

theorem add (p : Pass) (n : Node) (o : Outcome) : p.add (f n) o = p.add n o := by
  cases o <;> simp only [Pass.add, h.id]

theorem compileAll (nodes : List Node) (order : List Nat) :
    compileAll registry (nodes.map f) edges order = compileAll registry nodes edges order := by
  have hcopy (i : Nat) (id : String) : copyAt (nodes.map f) i id = copyAt nodes i id := by
    simp only [copyAt, ← List.map_take, List.countP_map, Function.comp_def, h.id]
  have hstep : compileAt registry (nodes.map f) edges = compileAt registry nodes edges := by
    funext p i
    rw [compileAt, compileAt, List.getElem?_map]
    cases nodes[i]? with
    | none => rfl
    | some n => simp only [Option.map_some, hcopy, h.id, h.compiled, h.add]
  rw [Compile.compileAll, Compile.compileAll, hstep, List.length_map]

theorem findSink? (nodes : List Node) :
    findSink? registry (nodes.map f) = (findSink? registry nodes).map f := by
  have hsink : isSink registry ∘ f = isSink registry := by
    funext n
    simp only [Function.comp_apply, isSink, h.type]
  rw [Compile.findSink?, Compile.findSink?, List.filter_map, hsink, smallest?_map h.id]

theorem orphans (nodes : List Node) :
    Instrument.orphans (nodes.map f) edges registry =
      (Instrument.orphans nodes edges registry).map f := by
  rw [Instrument.orphans, Instrument.orphans, List.filter_map]
  simp only [Function.comp_def, Instrument.isVisualizer, h.id, h.type]
  exact (List.map_mergeSort fun a _ b _ => by rw [h.id, h.id]).symm

theorem injectOrphans (outlets : OutletMap) (ns : List Node) (earlier : List String)
    (left : Instrument.Injected) :
    Instrument.injectOrphans registry outlets earlier (ns.map f) left =
      Instrument.injectOrphans registry outlets earlier ns left := by
  induction ns generalizing earlier left with
  | nil => rfl
  | cons n ns ih =>
    have hfirst : Instrument.firstOutlet? registry outlets (f n) =
        Instrument.firstOutlet? registry outlets n := by
      rw [Instrument.firstOutlet?, Instrument.firstOutlet?, h.id, h.type]
    rw [List.map_cons, Instrument.injectOrphans, Instrument.injectOrphans, ih, hfirst, h.id]

/-- The sink, the target down to its labels, and the statistics are those of the nodes as they
were. -/
theorem patch (options : CompileOptions) (nodes : List Node) :
    patch registry options (nodes.map f) edges = patch registry options nodes edges := by
  rw [Compile.patch, Compile.patch, h.findSink?]
  cases Compile.findSink? registry nodes with
  | none => rfl
  | some sink =>
    simp only [Option.map_some, Order.topological_map edges h.id, h.compileAll, h.id, instrument,
      h.orphans, h.injectOrphans]

end Neutral

end Compile

end Patchbay
