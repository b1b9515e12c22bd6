import Mathlib
import Patchbay.Proofs.Injection
import Patchbay.Proofs.Naming

/-!
# Compiling built-in types cannot fail

At every turn of the compiler what flows between nodes are expressions with named keys; no edge
delivers a bare number. That invariant is carried from node to node, and from the outlets through
the channels and the instrumentation to the target.
-/

set_option autoImplicit false

namespace Patchbay

open Patchbay.Expr

variable {nodes : List Node} {edges : List Edge} {compiled : OutletMap} {node : Node}

namespace Resolve

theorem connection?_expr {known : Set Expr} (hc : compiled.Within known) {inlet : Inlet}
    {edge : Edge} {s : Signal} (h : connection? edges compiled node inlet = some (edge, s)) :
    ∃ e ∈ known, s = .expr e := by
  simp only [connection?, Option.bind_eq_bind, Option.bind_eq_some_iff, Option.pure_def,
    Option.some.injEq, Prod.mk.injEq] at h
  obtain ⟨edge, -, s, hsource, rfl, rfl⟩ := h
  exact sourceOf_within hc hsource

/-- What an edge brings is handed on as it is. -/
theorem inletSignal_named (hc : compiled.Within named) (inlet : Inlet) :
    Build.Yields (inletSignal edges compiled node inlet) (Signal.In named) := by
  rw [inletSignal]
  split
  · next edge s h =>
    obtain ⟨e, he, rfl⟩ := connection?_expr hc h
    exact .pure he
  · exact .pure trivial

theorem inletSignals_named (hc : compiled.Within named) (inlets : List Inlet) :
    Build.Yields (inletSignals edges compiled node inlets) fun ss =>
      ss.map Prod.fst = inlets.map Inlet.name ∧ ∀ s ∈ ss, s.2.In named := by
  induction inlets with
  | nil => exact .pure ⟨rfl, by simp⟩
  | cons inlet inlets ih =>
    refine .bind (inletSignal_named hc inlet) fun s hs => .bind ih fun ss hss => ?_
    exact .pure ⟨by simp [hss.1], List.forall_mem_cons.2 ⟨hs, hss.2⟩⟩

theorem inputs_named (hc : compiled.Within named) (info : NodeInfo) :
    Build.Yields (inputs node info edges compiled)
      (Inputs.Offers named (info.inlets.map Inlet.name)) := by
  refine .bind (inletSignals_named hc info.inlets) fun ss hss => .pure fun name hn => ?_
  rw [← hss.1] at hn
  obtain ⟨s, hs, hf⟩ := Table.find?_ofList_of_mem hn
  exact ⟨s, hf, hss.2 _ hs⟩

end Resolve

namespace Compile

open Instrument

/-- One node: an unknown type is skipped, any other gives all its outlets. -/
theorem compileNode_named (edges : List Edge) (hc : compiled.Within named) (node : Node)
    (copy : Nat) :
    match Registry.builtin.find? node.type with
    | none => compileNode .builtin edges compiled node copy = .skipped
    | some t => ∃ o, compileNode .builtin edges compiled node copy = .compiled o ∧
        o.Gives named t.info.outlets := by
  cases ht : Registry.builtin.find? node.type with
  | none => simp only [compileNode, ht]
  | some t =>
    have hnames := builtin_names t (List.mem_of_find?_eq_some ht)
    exact compileNode_yields ht (Resolve.inputs_named hc t.info)
      (fun inputs hi => hnames inputs node.id hi) (fun _ ho => ho.some) copy

/-- What is carried from place to place. -/
structure Flawless (p : Pass) : Prop where
  named : p.outlets.Within named
  failed : p.stats.failed = 0

theorem compileAt_flawless (nodes : List Node) (edges : List Edge) {p : Pass} (h : Flawless p)
    (i : Nat) : Flawless (compileAt .builtin nodes edges p i) := by
  rw [compileAt]
  cases nodes[i]? with
  | none => exact h
  | some n =>
    have hnode := compileNode_named edges h.named n (copyAt nodes i n.id)
    cases hf : Registry.builtin.find? n.type with
    | none =>
      rw [hf] at hnode
      simp only [hnode, Pass.add]
      exact ⟨h.named, h.failed⟩
    | some t =>
      rw [hf] at hnode
      obtain ⟨o, ho, hgives⟩ := hnode
      simp only [ho, Pass.add]
      exact ⟨h.named.insert n.id hgives.expr, h.failed⟩

theorem compileAll_flawless (nodes : List Node) (edges : List Edge) (order : List Nat) :
    Flawless (compileAll .builtin nodes edges order) := by
  have hstart : Flawless ⟨.empty, { CompileStats.zero with
      dropped := nodes.length - order.length }⟩ := ⟨OutletMap.within_empty, rfl⟩
  exact List.foldlRecOn order _ hstart fun p hp i _ => compileAt_flawless nodes edges hp i

theorem channel_named (hc : compiled.Within named) (sink : String) {name : String}
    (hkey : ":" ++ name ++ ":silence" ∈ keySuffixes) :
    Build.Yields (channel compiled sink name) (· ∈ named) := by
  rw [channel]
  split
  · next s hs =>
    obtain ⟨o, ho, hs⟩ := Option.bind_eq_some_iff.1 hs
    obtain ⟨e, he, rfl⟩ := hc sink o ho name s hs
    exact .pure he
  · have hnamed : Named (sink ++ ":" ++ name ++ ":silence") := by
      simpa only [String.append_assoc] using named_of hkey sink
    exact .namedConst hnamed 0.0

theorem channels_named (hc : compiled.Within named) (sink : String) :
    (channels compiled sink).left ∈ named ∧ (channels compiled sink).right ∈ named := by
  have hpair : Build.Yields (do
      let left ← channel compiled sink "left"
      let right ← channel compiled sink "right"
      return (⟨left, right⟩ : RenderTarget)) fun t => t.left ∈ named ∧ t.right ∈ named :=
    .bind (channel_named hc sink (by decide)) fun _ hl =>
      .bind (channel_named hc sink (by decide)) fun _ hr => .pure ⟨hl, hr⟩
  exact hpair _

theorem zeroGain_named {key : String} (hkey : Named key) {signal : Expr} (h : signal ∈ named) :
    Build.Yields (zeroGain key signal) (· ∈ named) :=
  .bind (.namedConst hkey 0.0) fun zero hz => .apply (by simp [Signal.In, hz, h])

theorem edgeProbe_named (edge : String) {signal : Expr} (h : signal ∈ named) :
    Build.Yields (edgeProbe edge signal) (· ∈ named) := by
  refine .bind (.apply (by simpa [Signal.In] using h)) fun metered hm => ?_
  refine .bind (.apply (by simpa [Signal.In] using hm)) fun window hw => ?_
  exact zeroGain_named (named_of (by decide) edge) hw

theorem addTerm_named (scope : Scope) {left : Expr} (hl : left ∈ named) {term : Build Expr}
    (ht : term.Yields (· ∈ named)) : addTerm scope left term ∈ named := by
  have hsum : Build.Yields (do
      let term ← term
      Build.binary .add (.expr left) (.expr term)) (· ∈ named) :=
    .bind ht fun e he => .apply (by simp [Signal.In, hl, he])
  exact hsum _

theorem injectOrphans_named (registry : Registry) (hc : compiled.Within named)
    (orphans : List Node) (earlier : List String) {x : Injected} (h : x.channel ∈ named) :
    (injectOrphans registry compiled earlier orphans x).channel ∈ named := by
  induction orphans generalizing earlier x with
  | nil => exact h
  | cons n orphans ih =>
    apply ih
    split
    · next signal hs =>
      exact addTerm_named _ h
        (zeroGain_named (named_of (by decide) n.id) (firstOutlet?_within hc hs))
    · exact h

theorem injectProbes_named (hc : compiled.Within named) (edges : List Edge)
    (earlier : List String) {x : Injected} (h : x.channel ∈ named) :
    (injectProbes compiled earlier edges x).channel ∈ named := by
  induction edges generalizing earlier x with
  | nil => exact h
  | cons edge edges ih =>
    apply ih
    split
    · next signal hs =>
      obtain ⟨s, hsource, he⟩ := Option.bind_eq_some_iff.1 hs
      obtain ⟨f, hf, rfl⟩ := Resolve.sourceOf_within hc hsource
      cases he
      exact addTerm_named _ h (edgeProbe_named edge.id hf)
    · exact h

theorem instrument_named (options : CompileOptions) (nodes : List Node) (edges : List Edge)
    {p : Pass} (hc : p.outlets.Within named) {bare : RenderTarget} (hl : bare.left ∈ named) :
    (instrument .builtin options nodes edges p bare).1.left ∈ named := by
  have horphans : (if options.orphanVisualizers then
      injectOrphans .builtin p.outlets [] (orphans nodes edges .builtin) ⟨bare.left, 0⟩
    else ⟨bare.left, 0⟩ : Injected).channel ∈ named := by
    split
    · exact injectOrphans_named .builtin hc _ [] hl
    · exact hl
  rw [instrument]
  dsimp only
  split
  · exact injectProbes_named hc edges [] horphans
  · exact horphans

theorem patch_named {options : CompileOptions} {t : RenderTarget}
    (h : (patch .builtin options nodes edges).target = some t) :
    t.left ∈ named ∧ t.right ∈ named := by
  rw [patch] at h
  cases hs : findSink? .builtin nodes with
  | none => rw [hs] at h; cases h
  | some sink =>
    rw [hs] at h
    cases h
    have hc := (compileAll_flawless nodes edges (Order.topological nodes edges)).named
    obtain ⟨hl, hr⟩ := channels_named hc sink.id
    exact ⟨instrument_named options nodes edges hc hl, hr⟩

theorem patch_failed (options : CompileOptions) (nodes : List Node) (edges : List Edge) :
    (patch .builtin options nodes edges).stats.failed = 0 := by
  rw [patch]
  split
  · rfl
  · exact (compileAll_flawless nodes edges (Order.topological nodes edges)).failed

/-- Compiling with the built-in types counts no failure. At every turn a node of a known type gives
all its outlets, every one of them an expression, and so does every edge that feeds an inlet.
Below a target every node has as many children as its operation takes, and no key is that of a
lifted number. -/
theorem patch_total (options : CompileOptions) (nodes : List Node) (edges : List Edge) :
    (patch .builtin options nodes edges).stats.failed = 0 ∧
    (∀ i n seen, Turn .builtin nodes edges i n seen →
      (∀ inlet edge s, Resolve.connection? edges seen n inlet = some (edge, s) → s.isExpr) ∧
      match Registry.builtin.find? n.type with
      | none => compileNode .builtin edges seen n (copyAt nodes i n.id) = .skipped
      | some t => ∃ given, compileNode .builtin edges seen n (copyAt nodes i n.id) = .compiled given ∧
          (∀ name ∈ t.info.outlets, (given.find? name).isSome) ∧
          ∀ name s, given.find? name = some s → s.isExpr) ∧
    ∀ t, (patch .builtin options nodes edges).target = some t →
      ∀ e ∈ under [t.left, t.right], e.children.length = e.op.arity ∧
        ∀ key, e.key = some key → ∀ edge, key ≠ edge ++ ":lift" := by
  refine ⟨patch_failed options nodes edges, fun i n seen hturn => ?_, fun t ht e he => ⟨?_, ?_⟩⟩
  · obtain ⟨-, pre, post, -, rfl⟩ := hturn
    have hc := (compileAll_flawless nodes edges pre).named
    refine ⟨fun inlet edge s hs => ?_, ?_⟩
    · obtain ⟨x, -, rfl⟩ := Resolve.connection?_expr hc hs
      rfl
    · have hnode := compileNode_named edges hc n (copyAt nodes i n.id)
      cases hf : Registry.builtin.find? n.type with
      | none => rwa [hf] at hnode
      | some t =>
        rw [hf] at hnode
        obtain ⟨o, ho, hgives⟩ := hnode
        refine ⟨o, ho, fun name hname => Option.isSome_iff_exists.2 (hgives.some name hname),
          fun name s hs => ?_⟩
        obtain ⟨x, -, rfl⟩ := hgives.expr name s hs
        rfl
  · obtain ⟨-, -, -, -, -, -, known, hg, hl, hr, -⟩ := patch_built builtin_sound ht
    exact (hg.formed e (partsAll_of_grown hg _ (by simp [hl, hr]) e he)).arity
  · rintro key hkey edge rfl
    obtain ⟨hl, hr⟩ := patch_named ht
    obtain ⟨root, hroot, hpart⟩ := (mem_partsAll e _).1 he
    rcases List.mem_pair.1 hroot with rfl | rfl
    · exact not_named_lift edge (hl e hpart _ hkey)
    · exact not_named_lift edge (hr e hpart _ hkey)

/-- A filter fed by noise and heard, with a node of an unknown type beside it. -/
def hissNodes : List Node :=
  [.new "f" "filter", .new "n" "noise", .new "out" "output", .new "x" "theremin"]

def hissEdges : List Edge :=
  [⟨"a", "n", "signal", "f", "input"⟩, ⟨"b", "f", "signal", "out", "left"⟩]

def hissTarget : RenderTarget :=
  (patch .builtin .full hissNodes hissEdges).target.getD
    ⟨Renderer.silentRoot, Renderer.silentRoot⟩

theorem patch_total_hiss :
    (patch .builtin .full hissNodes hissEdges).stats.failed = 0 ∧
    (∃ seen, Turn .builtin hissNodes hissEdges 0 (.new "f" "filter") seen ∧
      (Resolve.connection? hissEdges seen (.new "f" "filter") ⟨"input", 0.0⟩).isSome ∧
      ∃ given, compileNode .builtin hissEdges seen (.new "f" "filter") 0 = .compiled given ∧
        ∀ name s, given.find? name = some s → s.isExpr) ∧
    (nodesOf [hissTarget.left, hissTarget.right]).length = 20 ∧
    ∀ e ∈ under [hissTarget.left, hissTarget.right], e.children.length = e.op.arity := by
  obtain ⟨hfailed, hturns, htarget⟩ := patch_total .full hissNodes hissEdges
  have horder : Order.topological hissNodes hissEdges = [1, 3, 0, 2] := by decide
  have hturn : Turn .builtin hissNodes hissEdges 0 (.new "f" "filter")
      (compileAll .builtin hissNodes hissEdges [1, 3]).outlets := ⟨rfl, [1, 3], [2], horder, rfl⟩
  obtain ⟨given, hgiven, -, hexpr⟩ := (hturns 0 _ _ hturn).2
  exact ⟨hfailed, ⟨_, hturn, by decide, given, hgiven, hexpr⟩, by decide +kernel,
    fun e he => (htarget hissTarget rfl e he).1⟩

end Compile

end Patchbay
