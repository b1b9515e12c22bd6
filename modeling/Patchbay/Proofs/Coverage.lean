import Mathlib
import Patchbay.Proofs.Agreement
import Patchbay.Proofs.Injection

/-!
# What the instrumentation covers

Taps report only where a channel reaches them. Once the check of a patch finds nothing, no tap that
could report stays dark: every edge out of a compiled node is probed, and a visualizer that
something flows into is either an orphan, added for its own sake, or stands behind the probe of an
edge that leads out of it.
-/

set_option autoImplicit false

namespace Patchbay

open Patchbay.Expr

/-- An expression behind a chain of taps, the last of them in front. -/
inductive Behind (x : Expr) : List Tap → Expr → Prop
  | bare : Behind x [] x
  | tap {taps : List Tap} {y : Expr} (h : Behind x taps y) (t : Tap) (l : Label) :
      Behind x (t :: taps) (.node l (.tap t) none [y])

namespace Behind

variable {x y : Expr} {taps : List Tap}

theorem mem_parts (h : Behind x taps y) : x ∈ parts y := by
  induction h with
  | bare => exact Expr.mem_parts x
  | tap h t l ih => exact mem_parts_child (by simp [children]) ih

end Behind

/-! ## What is reached through the additions -/

namespace Instrument

variable {registry : Registry} {compiled : OutletMap}

theorem addTerm_eq (scope : Scope) (left : Expr) (term : Build Expr) :
    ∃ l term', addTerm scope left term = .node l (.binary .add) none [left, term'] ∧
      term' = (term ⟨scope, 0⟩).1 :=
  ⟨_, _, rfl, rfl⟩

theorem zeroGain_eq (key : String) (signal : Expr) (l : Label) :
    ∃ l' zero, (zeroGain key signal l).1 = .node l' (.binary .mul) none [zero, signal] :=
  ⟨_, _, rfl⟩

theorem parts_addTerm_left (scope : Scope) (left : Expr) (term : Build Expr) :
    parts left ⊆ parts (addTerm scope left term) := by
  intro e he
  obtain ⟨l, term', heq, -⟩ := addTerm_eq scope left term
  rw [heq]
  exact mem_parts_child (by simp [children]) he

theorem parts_addTerm_term (scope : Scope) (left : Expr) (term : Build Expr) :
    parts (term ⟨scope, 0⟩).1 ⊆ parts (addTerm scope left term) := by
  intro e he
  obtain ⟨l, term', heq, rfl⟩ := addTerm_eq scope left term
  rw [heq]
  exact mem_parts_child (by simp [children]) he

theorem mem_parts_zeroGain (key : String) (signal : Expr) (l : Label) :
    signal ∈ parts (zeroGain key signal l).1 := by
  obtain ⟨l', zero, heq⟩ := zeroGain_eq key signal l
  rw [heq]
  exact mem_parts_child (by simp [children]) (mem_parts signal)

/-- The taps of an edge. -/
def edgeTaps (edge : String) : List Tap :=
  [.scope (edge ++ ":scope") edgeScopeSize, .meter (edge ++ ":meter")]

theorem edgeProbe_taps (edge : String) (signal : Expr) (l : Label) :
    ∃ window ∈ parts (edgeProbe edge signal l).1, Behind signal (edgeTaps edge) window := by
  let metered := (Build.meter (edge ++ ":meter") (.expr signal) l).1
  let window := Build.scope (edge ++ ":scope") edgeScopeSize (.expr metered)
    { l with index := l.index + 1 }
  have hwindow : window.1 ∈ parts (zeroGain (edge ++ ":z") window.1 window.2).1 :=
    mem_parts_zeroGain _ _ _
  exact ⟨window.1, hwindow, .tap (.tap .bare _ _) _ _⟩

/-- Whatever a channel reaches is still reached with orphans added to it, and so is the first
outlet of each of them. -/
theorem parts_injectOrphans (ns : List Node) (earlier : List String) (left : Injected) :
    parts left.channel ⊆ parts (injectOrphans registry compiled earlier ns left).channel ∧
      ∀ n ∈ ns, ∀ y, firstOutlet? registry compiled n = some y →
        y ∈ parts (injectOrphans registry compiled earlier ns left).channel := by
  induction ns generalizing earlier left with
  | nil => exact ⟨List.Subset.refl _, by simp⟩
  | cons n ns ih =>
    rw [injectOrphans]
    cases hf : firstOutlet? registry compiled n with
    | none =>
      obtain ⟨hleft, hns⟩ := ih (n.id :: earlier) left
      refine ⟨hleft, fun m hm y hy => ?_⟩
      rcases List.mem_cons.1 hm with rfl | hm
      · rw [hf] at hy
        cases hy
      · exact hns m hm y hy
    | some signal =>
      let scope : Scope := .orphan n.id (copyOf earlier n.id)
      let term := zeroGain (n.id ++ ":zero") signal
      obtain ⟨hleft, hns⟩ := ih (n.id :: earlier)
        ⟨addTerm scope left.channel term, left.count + 1⟩
      refine ⟨List.Subset.trans (parts_addTerm_left scope left.channel term) hleft,
        fun m hm y hy => ?_⟩
      rcases List.mem_cons.1 hm with rfl | hm
      · rw [hf] at hy
        cases hy
        exact hleft (parts_addTerm_term scope left.channel term (mem_parts_zeroGain _ _ _))
      · exact hns m hm y hy

/-- Whatever a channel reaches is still reached with probes added to it, and so are the taps of
each edge that carries an expression. -/
theorem parts_injectProbes (edges : List Edge) (earlier : List String) (left : Injected) :
    parts left.channel ⊆ parts (injectProbes compiled earlier edges left).channel ∧
      ∀ e ∈ edges, ∀ x, Resolve.sourceOf compiled e = some (.expr x) →
        ∃ window ∈ parts (injectProbes compiled earlier edges left).channel,
          Behind x (edgeTaps e.id) window := by
  induction edges generalizing earlier left with
  | nil => exact ⟨List.Subset.refl _, by simp⟩
  | cons e edges ih =>
    rw [injectProbes]
    cases hf : (Resolve.sourceOf compiled e).bind Signal.expr? with
    | none =>
      obtain ⟨hleft, hedges⟩ := ih (e.id :: earlier) left
      refine ⟨hleft, fun e' he' x hx => ?_⟩
      rcases List.mem_cons.1 he' with rfl | he'
      · rw [hx] at hf
        cases hf
      · exact hedges e' he' x hx
    | some signal =>
      let scope : Scope := .probe e.id (copyOf earlier e.id)
      let term := edgeProbe e.id signal
      obtain ⟨hleft, hedges⟩ := ih (e.id :: earlier)
        ⟨addTerm scope left.channel term, left.count + 1⟩
      refine ⟨List.Subset.trans (parts_addTerm_left scope left.channel term) hleft,
        fun e' he' x hx => ?_⟩
      rcases List.mem_cons.1 he' with rfl | he'
      · rw [hx] at hf
        cases hf
        obtain ⟨window, hwindow, hbehind⟩ := edgeProbe_taps e'.id signal ⟨scope, 0⟩
        exact ⟨window, hleft (parts_addTerm_term scope left.channel term hwindow), hbehind⟩
      · exact hedges e' he' x hx

end Instrument

/-! ## Visualizers -/

/-- The taps a node has of its own, the last of them first. -/
def Node.taps (n : Node) : List Tap :=
  if n.type = "scope" then [.scope n.id NodeType.scopeSize]
  else if n.type = "fft" then [.fft n.id NodeType.spectrumSize]
  else if n.type = "meter" then [.meter n.id]
  else if n.type = "probe" then
    [.scope (n.id ++ ":scope") NodeType.scopeSize, .meter (n.id ++ ":meter")]
  else []

namespace NodeType

/-- A visualizer shows what flows into its one inlet and passes it on. -/
structure Shows (t : NodeType) (n : Node) : Prop where
  inlets : t.info.inlets = inputInlet
  outlets : t.info.outlets = ["signal"]
  taps : ∀ i x, i.signal "input" = .ok (.expr x) →
    NodeBuild.Yields (t.compile i n.id) fun o =>
      ∃ y, o.find? "signal" = some (.expr y) ∧ Behind x n.taps y

theorem withInput_yields {i : Inputs} {x : Expr} (h : i.signal "input" = .ok (.expr x))
    (id : String) {process : Expr → NodeBuild Expr} {P : Expr → Prop}
    (hp : NodeBuild.Yields (process x) P) :
    NodeBuild.Yields (withInput i id process) fun o =>
      ∃ y, o.find? "signal" = some (.expr y) ∧ P y := by
  have hget : NodeBuild.Yields (i.get "input") (· = .expr x) := fun l => ⟨_, h, rfl⟩
  refine .bind hget fun s hs => ?_
  rw [hs]
  exact .bind hp fun y hy => .pure ⟨y, rfl, hy⟩

theorem tap_yields {x y : Expr} {taps : List Tap} (h : Behind x taps y) (t : Tap) :
    Build.Yields (Build.tap t (.expr y)) (Behind x (t :: taps)) :=
  fun _ => .tap h t _

theorem scope_shows {n : Node} (hn : n.type = "scope") : scope.Shows n := by
  refine ⟨rfl, rfl, fun i x hx => ?_⟩
  have htaps : n.taps = [.scope n.id scopeSize] := by simp [Node.taps, hn]
  rw [htaps]
  exact withInput_yields hx n.id (.lift (tap_yields .bare _))

theorem spectrum_shows {n : Node} (hn : n.type = "fft") : spectrum.Shows n := by
  refine ⟨rfl, rfl, fun i x hx => ?_⟩
  have htaps : n.taps = [.fft n.id spectrumSize] := by simp [Node.taps, hn]
  rw [htaps]
  exact withInput_yields hx n.id (.lift (tap_yields .bare _))

theorem meter_shows {n : Node} (hn : n.type = "meter") : meter.Shows n := by
  refine ⟨rfl, rfl, fun i x hx => ?_⟩
  have htaps : n.taps = [.meter n.id] := by simp [Node.taps, hn]
  rw [htaps]
  exact withInput_yields hx n.id (.lift (tap_yields .bare _))

theorem probe_shows {n : Node} (hn : n.type = "probe") : probe.Shows n := by
  refine ⟨rfl, rfl, fun i x hx => ?_⟩
  have htaps : n.taps = [.scope (n.id ++ ":scope") scopeSize, .meter (n.id ++ ":meter")] := by
    simp [Node.taps, hn]
  rw [htaps]
  refine withInput_yields hx n.id ?_
  exact .bind (.lift (tap_yields .bare _)) fun metered hm => .lift (tap_yields hm _)

theorem builtin_visualizers :
    Registry.builtin.types.filter (·.info.category = .visualizer) =
      [scope, spectrum, meter, probe] := rfl

theorem builtin_shows {n : Node} (hn : Instrument.isVisualizer .builtin n = true) :
    ∃ t, Registry.builtin.find? n.type = some t ∧ t.Shows n := by
  have hany : (Registry.builtin.find? n.type).any (·.info.category = .visualizer) = true := by
    rw [← hn, Instrument.isVisualizer]
    cases Registry.builtin.find? n.type <;> rfl
  obtain ⟨t, hmem, ht⟩ := Registry.find?_of_category hany
  have htype : t.info.id = n.type := by simpa using List.find?_some ht
  refine ⟨t, ht, ?_⟩
  rw [builtin_visualizers] at hmem
  simp only [List.mem_cons, List.not_mem_nil, or_false] at hmem
  rcases hmem with rfl | rfl | rfl | rfl
  · exact scope_shows htype.symm
  · exact spectrum_shows htype.symm
  · exact meter_shows htype.symm
  · exact probe_shows htype.symm

end NodeType

/-! ## Patches -/

open Compile (Turn compileNode compileAll copyAt)

/-- At its turn a node gives an expression for an outlet. -/
def Gives (registry : Registry) (p : Patch) (n : Node) (name : String) (x : Expr) : Prop :=
  ∃ i seen given, Turn registry p.nodes p.edges i n seen ∧
    compileNode registry p.edges seen n (copyAt p.nodes i n.id) = .compiled given ∧
    given.find? name = some (.expr x)

/-- All that could be shown of a patch is reached from the left channel. -/
structure Covers (registry : Registry) (p : Patch) (left : Expr) : Prop where
  /-- Meter and scope of an edge read what its source gives for the outlet it comes from. -/
  edges : ∀ e ∈ p.edges, ∀ m ∈ Order.sortedNodes p.nodes p.edges, m.id = e.source →
    ∃ x, Gives registry p m e.sourceHandle x ∧
      ∃ window ∈ parts left, Behind x (Instrument.edgeTaps e.id) window
  /-- The taps of a visualizer read what the source of an edge into it gives. -/
  visualizers : ∀ n ∈ Order.sortedNodes p.nodes p.edges,
    Instrument.isVisualizer registry n = true → ∀ e ∈ p.edges, e.target = n.id →
      ∃ m x y, m.id = e.source ∧ Gives registry p m e.sourceHandle x ∧
        Gives registry p n "signal" y ∧ Behind x n.taps y ∧ y ∈ parts left

/-- What a node gives at its turn is what is found of it in the end. -/
theorem Gives.found {registry : Registry} {p : Patch} {n : Node} {name : String} {x : Expr}
    (h : Gives registry p n name x) (distinct : (p.nodes.map Node.id).Nodup) :
    ((compileAll registry p.nodes p.edges (Order.topological p.nodes p.edges)).outlets.find?
      n.id).bind (fun o : Outputs => o.find? name) = some (.expr x) := by
  obtain ⟨i, seen, given, hturn, hgiven, hx⟩ := h
  rw [hturn.found distinct, hgiven]
  exact hx

namespace Checked

variable {registry : Registry} {p : Patch}

theorem gives (hc : Checked registry p) (sound : ∀ t ∈ registry.types, t.Sound) {m : Node}
    (hm : m ∈ Order.sortedNodes p.nodes p.edges) {e : Edge} (he : e ∈ p.edges)
    (hid : m.id = e.source) : ∃ x, Gives registry p m e.sourceHandle x := by
  obtain ⟨i, hi, hplace⟩ := (Order.mem_sortedNodes m).1 hm
  obtain ⟨m', seen, hturn⟩ := Compile.exists_turn registry hi
  obtain rfl : m' = m := Option.some.inj (hturn.node.symm.trans hplace)
  obtain ⟨t, ht⟩ := hc.known m' (mem_of_turn hturn)
  obtain ⟨given, hgiven, hall⟩ := hturn.compiled sound ht
  obtain ⟨x, hx⟩ := hall e.sourceHandle (hc.outlets e he m' (mem_of_turn hturn) hid t ht)
  exact ⟨x, i, seen, given, hturn, hgiven, hx⟩

/-- A visualizer that an edge leads to stands with its taps behind what comes through the edge. -/
theorem shown (hc : Checked .builtin p) {n : Node} (hn : n ∈ Order.sortedNodes p.nodes p.edges)
    (hvisual : Instrument.isVisualizer .builtin n = true) {e : Edge} (he : e ∈ p.edges)
    (htarget : e.target = n.id) :
    ∃ m x y, m.id = e.source ∧ Gives .builtin p m e.sourceHandle x ∧
      Gives .builtin p n "signal" y ∧ Behind x n.taps y := by
  obtain ⟨i, hi, hplace⟩ := (Order.mem_sortedNodes n).1 hn
  obtain ⟨n', seen, hturn⟩ := Compile.exists_turn .builtin hi
  obtain rfl : n' = n := Option.some.inj (hturn.node.symm.trans hplace)
  obtain ⟨t, ht, hshows⟩ := NodeType.builtin_shows hvisual
  obtain ⟨j, m, before, given, x, hsource, hid, hgiven, hx, t', ht', hinput⟩ :=
    hc.carried builtin_sound hturn he htarget
  obtain rfl : t' = t := Option.some.inj (ht'.symm.trans ht)
  have hname : e.targetHandle = "input" := by
    have hmem := hc.inlets e he n' (mem_of_turn hturn) htarget.symm t' ht
    rw [hshows.inlets] at hmem
    simpa [NodeType.inputInlet] using hmem
  rw [hname] at hinput
  have hinputs : Build.Yields (Resolve.inputs n' t'.info p.edges seen) fun inputs =>
      inputs.signal "input" = .ok (.expr x) := hinput
  obtain ⟨o, ho, y, hy, hbehind⟩ := Compile.compileNode_yields ht hinputs
    (fun inputs h => hshows.taps inputs x h)
    (by rintro o ⟨y, hy, -⟩; simp [hshows.outlets, hy]) (copyAt p.nodes i n'.id)
  exact ⟨m, x, y, hid, ⟨j, before, given, hsource, hgiven, hx⟩, ⟨i, seen, o, hturn, ho, hy⟩,
    hbehind⟩

end Checked

namespace Compile

open Instrument

variable {p : Patch}

theorem mem_orphans {registry : Registry} {nodes : List Node} {edges : List Edge} {n : Node} :
    n ∈ orphans nodes edges registry ↔ n ∈ nodes ∧ isVisualizer registry n = true ∧
      (∃ e ∈ edges, e.target = n.id) ∧ ∀ e ∈ edges, e.source ≠ n.id := by
  rw [orphans, List.mem_mergeSort, List.mem_filter]
  simp only [Bool.and_eq_true, List.any_eq_true, decide_eq_true_eq, Bool.not_eq_true',
    List.any_eq_false, and_assoc]

/-- The left channel reaches what is there of the orphans and the taps of all edges that carry an
expression. -/
theorem parts_instrument (registry : Registry) (nodes : List Node) (edges : List Edge) (pass : Pass)
    (bare : RenderTarget) :
    (∀ n ∈ orphans nodes edges registry, ∀ y, firstOutlet? registry pass.outlets n = some y →
        y ∈ parts (instrument registry .full nodes edges pass bare).1.left) ∧
      ∀ e ∈ edges, ∀ x, Resolve.sourceOf pass.outlets e = some (.expr x) →
        ∃ window ∈ parts (instrument registry .full nodes edges pass bare).1.left,
          Behind x (edgeTaps e.id) window := by
  let orphaned := injectOrphans registry pass.outlets [] (orphans nodes edges registry)
    ⟨bare.left, 0⟩
  obtain ⟨-, horphans⟩ := @parts_injectOrphans registry pass.outlets
    (orphans nodes edges registry) [] ⟨bare.left, 0⟩
  obtain ⟨hkept, hprobes⟩ := @parts_injectProbes pass.outlets edges [] ⟨orphaned.channel, 0⟩
  exact ⟨fun n hn y hy => hkept (horphans n hn y hy), hprobes⟩

theorem firstOutlet?_shown (hc : Checked .builtin p) {n : Node} {y : Expr}
    (hvisual : isVisualizer .builtin n = true) (hy : Gives .builtin p n "signal" y) :
    firstOutlet? .builtin (compileAll .builtin p.nodes p.edges
      (Order.topological p.nodes p.edges)).outlets n = some y := by
  obtain ⟨t, ht, hshows⟩ := NodeType.builtin_shows hvisual
  obtain ⟨given, hgiven, hsignal⟩ :=
    Option.bind_eq_some_iff.1 (hy.found hc.wellFormed.nodeIds)
  simp only [firstOutlet?, ht, hshows.outlets, hgiven, hsignal, Option.bind_eq_bind,
    Option.bind_some, List.head?_cons, Signal.expr?]

/-- With all instrumentation a channel covers the patch, whatever it is otherwise. -/
theorem instrument_covers (hc : Checked .builtin p) (bare : RenderTarget) :
    Covers .builtin p (instrument .builtin .full p.nodes p.edges
      (compileAll .builtin p.nodes p.edges (Order.topological p.nodes p.edges)) bare).1.left := by
  obtain ⟨horphans, hprobes⟩ := parts_instrument .builtin p.nodes p.edges
    (compileAll .builtin p.nodes p.edges (Order.topological p.nodes p.edges)) bare
  have hsource {e : Edge} {m : Node} {x : Expr} (hid : m.id = e.source)
      (hx : Gives .builtin p m e.sourceHandle x) :
      Resolve.sourceOf (compileAll .builtin p.nodes p.edges
        (Order.topological p.nodes p.edges)).outlets e = some (.expr x) := by
    rw [Resolve.sourceOf, ← hid]
    exact hx.found hc.wellFormed.nodeIds
  constructor
  case edges =>
    intro e he m hm hid
    obtain ⟨x, hx⟩ := hc.gives builtin_sound hm he hid
    exact ⟨x, hx, hprobes e he x (hsource hid hx)⟩
  case visualizers =>
    intro n hn hvisual e he htarget
    obtain ⟨m, x, y, hid, hx, hy, hbehind⟩ := hc.shown hn hvisual he htarget
    refine ⟨m, x, y, hid, hx, hy, hbehind, ?_⟩
    have hmem : n ∈ p.nodes :=
      (((Order.sortedNodes_arranged p.edges hc.wellFormed.nodeIds).mem_iff n).1 hn).1
    -- either an edge leads out of it, behind whose probe it stands, or it is an orphan
    by_cases hout : ∀ f ∈ p.edges, f.source ≠ n.id
    · have horphan : n ∈ orphans p.nodes p.edges .builtin :=
        mem_orphans.2 ⟨hmem, hvisual, ⟨e, he, htarget⟩, hout⟩
      exact horphans n horphan y (firstOutlet?_shown hc hvisual hy)
    · push Not at hout
      obtain ⟨f, hf, hleads⟩ := hout
      obtain ⟨t, ht, hshows⟩ := NodeType.builtin_shows hvisual
      have hname : f.sourceHandle = "signal" := by
        have houtlet := hc.outlets f hf n hmem hleads.symm t ht
        simpa [hshows.outlets] using houtlet
      rw [← hname] at hy
      obtain ⟨window, hwindow, hprobed⟩ := hprobes f hf y (hsource hleads.symm hy)
      exact parts_trans _ _ hwindow hprobed.mem_parts

theorem probed_iff (hc : Checked .builtin p) {e : Edge} (he : e ∈ p.edges) :
    probed (compileAll .builtin p.nodes p.edges (Order.topological p.nodes p.edges)).outlets e =
        true ↔
      e.source ∈ (Order.sortedNodes p.nodes p.edges).map Node.id := by
  constructor
  · intro hprobed
    by_contra hnot
    have hsettled := compileAll_settled .builtin p.edges hc.wellFormed.nodeIds
    rw [probed, Resolve.sourceOf, hsettled.nowhere e.source hnot] at hprobed
    cases hprobed
  · intro hsource
    obtain ⟨m, hm, hid⟩ := List.mem_map.1 hsource
    obtain ⟨x, hx⟩ := hc.gives builtin_sound hm he hid
    have hfound := hx.found hc.wellFormed.nodeIds
    rw [hid] at hfound
    rw [probed, Resolve.sourceOf, hfound]
    rfl

/-- Where the check of a patch finds nothing, the left channel reaches meter and scope of every
edge out of a node in the order and all taps of every visualizer in the order that an edge leads
to, and the right channel is left as it is. -/
theorem patch_covers (p : Patch) (h : Check.patch .builtin p = []) :
    ∃ bare t, (patch .builtin .bare p.nodes p.edges).target = some bare ∧
      (patch .builtin .full p.nodes p.edges).target = some t ∧ Covers .builtin p t.left ∧
      t.right = bare.right ∧ (patch .builtin .full p.nodes p.edges).stats.probes =
        p.edges.countP fun e => e.source ∈ (Order.sortedNodes p.nodes p.edges).map Node.id := by
  have hc := Check.checked_of_patch h
  obtain ⟨sink, -, -, hsink⟩ := findSink?_isSome hc.sink
  rw [patch, patch, hsink]
  refine ⟨_, _, rfl, rfl, instrument_covers hc _, rfl, ?_⟩
  show (injectProbes _ [] p.edges _).count = _
  rw [count_injectProbes, Nat.zero_add]
  refine List.countP_congr fun e he => ?_
  rw [probed_iff hc he, decide_eq_true_iff]

/-- A tone that is heard through a meter and shown by a scope, beside two gains that feed each
other. -/
theorem patch_covers_tone :
    let p : Patch := ⟨[.new "tone" "oscillator", .new "level" "meter", .new "wave" "scope",
        .new "a" "gain", .new "b" "gain", .new "out" "output"],
      [⟨"ab", "a", "signal", "b", "input"⟩, ⟨"ba", "b", "signal", "a", "input"⟩,
        ⟨"shown", "tone", "signal", "wave", "input"⟩,
        ⟨"measured", "tone", "signal", "level", "input"⟩,
        ⟨"heard", "level", "signal", "out", "left"⟩]⟩
    Check.patch .builtin p = [] ∧
      ∃ bare t, (patch .builtin .bare p.nodes p.edges).target = some bare ∧
        (patch .builtin .full p.nodes p.edges).target = some t ∧ Covers .builtin p t.left ∧
        t.right = bare.right ∧ (patch .builtin .full p.nodes p.edges).stats.probes =
          p.edges.countP fun e => e.source ∈ (Order.sortedNodes p.nodes p.edges).map Node.id := by
  intro p
  have h : Check.patch .builtin p = [] := by decide
  exact ⟨h, patch_covers p h⟩

end Compile

end Patchbay
