import Mathlib
import Patchbay.Proofs.Cycle
import Patchbay.Proofs.Turn
import Patchbay.Proofs.WellFormed

/-!
# Check and compiler agree

The check lists what the compiler works around, each with its own way of looking nodes up. Where
it finds nothing there is nothing left to work around but cycles: all nodes in the order compile,
every edge between them delivers what its source gave, and stored values are taken as they are.
-/

set_option autoImplicit false

namespace Patchbay

variable {registry : Registry} {p : Patch}

/-- An entry of node data can be read as what is declared under its name. -/
def Setting.Fits (s : Setting) (v : Param) : Prop :=
  match s.kind with
  | .choice options _ => ∃ name ∈ options, v.text? = some name
  | .number _ => v.number?.isSome

/-- What a check that finds nothing says of a patch. -/
structure Checked (registry : Registry) (p : Patch) : Prop where
  wellFormed : WellFormed p
  sink : ∃ n ∈ p.nodes, Compile.isSink registry n
  known : ∀ n ∈ p.nodes, ∃ t, registry.find? n.type = some t
  numbers : ∀ n ∈ p.nodes, ∀ t, registry.find? n.type = some t → ∀ inlet ∈ t.info.inlets,
    ∀ v, n.data.find? inlet.name = some v → v.number?.isSome
  settings : ∀ n ∈ p.nodes, ∀ t, registry.find? n.type = some t → ∀ s ∈ t.info.settings,
    ∀ v, n.data.find? s.name = some v → s.Fits v
  outlets : ∀ e ∈ p.edges, ∀ m ∈ p.nodes, m.id = e.source →
    ∀ t, registry.find? m.type = some t → e.sourceHandle ∈ t.info.outlets
  inlets : ∀ e ∈ p.edges, ∀ n ∈ p.nodes, n.id = e.target →
    ∀ t, registry.find? n.type = some t → e.targetHandle ∈ t.info.inlets.map Inlet.name

namespace Check

theorem inlet_eq_nil {n : Node} {i : Inlet} (h : inlet n i = []) {v : Param}
    (hv : n.data.find? i.name = some v) : v.number?.isSome := by
  rw [inlet, hv] at h
  rw [← Param.isNumeric_eq]
  by_contra hnot
  simp [hnot] at h

theorem setting_eq_nil {n : Node} {s : Setting} (h : setting n s = []) {v : Param}
    (hv : n.data.find? s.name = some v) : s.Fits v := by
  rw [setting, hv] at h
  rw [Setting.Fits]
  cases hk : s.kind with
  | number default =>
    rw [hk] at h
    show v.number?.isSome
    rw [← Param.isNumeric_eq]
    by_contra hnot
    simp [hnot] at h
  | choice options default =>
    rw [hk] at h
    show ∃ name ∈ options, v.text? = some name
    cases ht : v.text? with
    | none => simp [ht] at h
    | some name =>
      have hmem : name ∈ options := by
        by_contra hnot
        simp [ht, hnot] at h
      exact ⟨name, hmem, rfl⟩

theorem node_eq_nil {n : Node} (h : node registry n = []) :
    ∃ t, registry.find? n.type = some t ∧ (∀ i ∈ t.info.inlets, inlet n i = []) ∧
      ∀ s ∈ t.info.settings, setting n s = [] := by
  rw [node] at h
  cases ht : registry.find? n.type with
  | none => simp [ht] at h
  | some t =>
    rw [ht] at h
    simp only [List.append_eq_nil_iff, List.flatMap_eq_nil_iff] at h
    exact ⟨t, rfl, h.1, h.2⟩

theorem nodes_eq_nil {met : List String} {ns : List Node} (h : nodes registry met ns = []) :
    ∀ n ∈ ns, node registry n = [] := by
  induction ns generalizing met with
  | nil => simp
  | cons n ns ih =>
    rw [nodes, List.append_eq_nil_iff, List.append_eq_nil_iff] at h
    rw [List.forall_mem_cons]
    exact ⟨h.1.2, ih h.2⟩

theorem edges_eq_nil {ns : List Node} {met es : List Edge} (h : edges registry ns met es = []) :
    ∀ e ∈ es, edge registry ns e = [] := by
  induction es generalizing met with
  | nil => simp
  | cons e es ih =>
    rw [edges, List.append_eq_nil_iff, List.append_eq_nil_iff, List.append_eq_nil_iff] at h
    rw [List.forall_mem_cons]
    exact ⟨h.1.1.2, ih h.2⟩

/-- Of several nodes the check takes the last and the compiler the first; here there is one. -/
theorem endpoint?_eq (distinct : (p.nodes.map Node.id).Nodup) {n : Node} (hn : n ∈ p.nodes) :
    endpoint? p.nodes n.id = some n := by
  have hreverse : (p.nodes.reverse.map Node.id).Nodup := by
    rw [List.map_reverse]
    exact List.nodup_reverse.2 distinct
  exact find?_of_distinct hreverse (by simp) (List.mem_reverse.2 hn)

theorem endpoint_eq_nil (distinct : (p.nodes.map Node.id).Nodup) {e : Edge}
    {lacks : NodeInfo → Bool} {missing : String → Problem} {n : Node} (hn : n ∈ p.nodes)
    (h : endpoint registry p.nodes e n.id lacks missing = []) {t : NodeType}
    (ht : registry.find? n.type = some t) : lacks t.info = false := by
  rw [endpoint, endpoint?_eq distinct hn] at h
  simp only [ht] at h
  by_contra hlacks
  simp [hlacks] at h

theorem checked_of_patch (h : patch registry p = []) : Checked registry p := by
  have hwell : WellFormed p := (clean_patch p).1 (h ▸ clean_nil)
  rw [patch, List.append_eq_nil_iff, List.append_eq_nil_iff] at h
  obtain ⟨⟨hnodes, hsink⟩, hedges⟩ := h
  have hnode (n : Node) (hn : n ∈ p.nodes) := node_eq_nil (nodes_eq_nil hnodes n hn)
  have hedge (e : Edge) (he : e ∈ p.edges) := List.append_eq_nil_iff.1 (edges_eq_nil hedges e he)
  constructor
  case wellFormed => exact hwell
  case sink =>
    have hhas : hasSink registry p.nodes = true := by
      by_contra hnot
      simp [hnot] at hsink
    rw [hasSink, List.any_eq_true] at hhas
    obtain ⟨n, hn, hcategory⟩ := hhas
    exact ⟨n, hn, hcategory⟩
  case known =>
    intro n hn
    obtain ⟨t, ht, -⟩ := hnode n hn
    exact ⟨t, ht⟩
  case numbers =>
    intro n hn t ht i hi v hv
    obtain ⟨t', ht', hinlets, -⟩ := hnode n hn
    obtain rfl : t' = t := Option.some.inj (ht'.symm.trans ht)
    exact inlet_eq_nil (hinlets i hi) hv
  case settings =>
    intro n hn t ht s hs v hv
    obtain ⟨t', ht', -, hsettings⟩ := hnode n hn
    obtain rfl : t' = t := Option.some.inj (ht'.symm.trans ht)
    exact setting_eq_nil (hsettings s hs) hv
  case outlets =>
    intro e he m hm hid t ht
    have hsource := (hedge e he).1
    rw [← hid] at hsource
    have hlacks := endpoint_eq_nil hwell.nodeIds hm hsource ht
    simpa [NodeInfo.hasOutlet] using hlacks
  case inlets =>
    intro e he n hn hid t ht
    have htarget := (hedge e he).2
    rw [← hid] at htarget
    have hlacks := endpoint_eq_nil hwell.nodeIds hn htarget ht
    rw [Option.isNone_eq_false_iff, NodeInfo.inlet?, List.find?_isSome] at hlacks
    obtain ⟨inlet, hmem, hname⟩ := hlacks
    exact List.mem_map.2 ⟨inlet, hmem, of_decide_eq_true hname⟩

end Check

open Compile (Turn compileNode compileAll copyAt)

/-- At its turn a node gets through an edge the very expression that the source of the edge gave
for the outlet at its own turn. -/
def Carried (registry : Registry) (p : Patch) (e : Edge) (n : Node) (seen : OutletMap) : Prop :=
  ∃ j m before given x, Turn registry p.nodes p.edges j m before ∧ m.id = e.source ∧
    compileNode registry p.edges before m (copyAt p.nodes j m.id) = .compiled given ∧
    given.find? e.sourceHandle = some (.expr x) ∧
    ∃ t, registry.find? n.type = some t ∧
      ∀ l, (Resolve.inputs n t.info p.edges seen l).1.signal e.targetHandle = .ok (.expr x)

/-- A node gets for an inlet the number stored under its name. -/
def Stored (n : Node) (info : NodeInfo) (edges : List Edge) (seen : OutletMap) (name : String)
    (v : Param) : Prop :=
  ∃ x, v.number? = some x ∧
    ∀ l, (Resolve.inputs n info edges seen l).1.signal name = .ok (.literal x)

namespace Checked

variable {i : Nat} {n : Node} {seen : OutletMap}

theorem mem_of_turn (h : Turn registry p.nodes p.edges i n seen) : n ∈ p.nodes :=
  List.mem_of_getElem? h.node

theorem source (hc : Checked registry p) (sound : ∀ t ∈ registry.types, t.Sound)
    (h : Turn registry p.nodes p.edges i n seen) {e : Edge} (he : e ∈ p.edges)
    (hn : e.target = n.id) :
    ∃ j m before given x, Turn registry p.nodes p.edges j m before ∧ m.id = e.source ∧
      compileNode registry p.edges before m (copyAt p.nodes j m.id) = .compiled given ∧
      given.find? e.sourceHandle = some (.expr x) ∧
      seen.find? e.source = some given ∧
      (compileAll registry p.nodes p.edges
        (Order.topological p.nodes p.edges)).outlets.find? e.source = some given := by
  obtain ⟨m, hm, hid⟩ := List.mem_map.1 (hc.wellFormed.ends e he).1
  obtain ⟨t, ht⟩ := hc.known m hm
  obtain ⟨j, before, hturn, hseen, hfinal⟩ :=
    h.source hc.wellFormed.nodeIds he hn hm hid.symm
  obtain ⟨given, hgiven, hall⟩ := hturn.compiled sound ht
  obtain ⟨x, hx⟩ := hall e.sourceHandle (hc.outlets e he m hm hid t ht)
  rw [hgiven] at hseen hfinal
  rw [← hid]
  exact ⟨j, m, before, given, x, hturn, rfl, hgiven, hx, hseen, hfinal⟩

theorem find?_feeds (hc : Checked registry p) {e : Edge} (he : e ∈ p.edges) :
    p.edges.find? (·.feeds e.target e.targetHandle) = some e :=
  find?_of_distinct hc.wellFormed.inlets (fun f => f.feeds_iff _ _) he

theorem carried (hc : Checked registry p) (sound : ∀ t ∈ registry.types, t.Sound)
    (h : Turn registry p.nodes p.edges i n seen) {e : Edge} (he : e ∈ p.edges)
    (hn : e.target = n.id) : Carried registry p e n seen := by
  obtain ⟨j, m, before, given, x, hturn, hid, hgiven, hx, hseen, -⟩ := hc.source sound h he hn
  obtain ⟨t, ht⟩ := hc.known n (mem_of_turn h)
  refine ⟨j, m, before, given, x, hturn, hid, hgiven, hx, t, ht, ?_⟩
  apply Resolve.inputs_signal (hc.inlets e he n (mem_of_turn h) hn.symm t ht)
  intro inlet _ hname l
  have hsource : Resolve.sourceOf seen e = some (.expr x) := by
    rw [Resolve.sourceOf, hseen, Option.bind_some, hx]
  have hconn : Resolve.connection? p.edges seen n inlet = some (e, .expr x) := by
    rw [Resolve.connection?, hname, ← hn, hc.find?_feeds he]
    simp only [Option.bind_eq_bind, Option.bind_some, hsource, Option.pure_def]
  rw [Resolve.inletSignal, hconn]
  rfl

theorem stored (hc : Checked registry p) (h : Turn registry p.nodes p.edges i n seen)
    {t : NodeType} (ht : registry.find? n.type = some t) {inlet : Inlet}
    (hi : inlet ∈ t.info.inlets) (hfree : ∀ e ∈ p.edges, e.feeds n.id inlet.name = false)
    {v : Param} (hv : n.data.find? inlet.name = some v) :
    Stored n t.info p.edges seen inlet.name v := by
  have hnumber := hc.numbers n (mem_of_turn h) t ht inlet hi v hv
  obtain ⟨x, hx⟩ := Option.isSome_iff_exists.1 hnumber
  refine ⟨x, hx, ?_⟩
  apply Resolve.inputs_signal (List.mem_map_of_mem hi)
  intro inlet' _ hname l
  have hnone : p.edges.find? (·.feeds n.id inlet.name) = none := by
    rw [List.find?_eq_none]
    intro e he hfeeds
    rw [hfree e he] at hfeeds
    cases hfeeds
  rw [Resolve.inletSignal, Resolve.connection?, hname, hnone]
  show Signal.literal (Resolve.literalOf n inlet') = _
  rw [Resolve.literalOf, hname, hv, Option.bind_some, hx, Option.getD_some]

/-- In sight of all outlets a node compiles just as it did at its turn. -/
theorem compiled (hc : Checked registry p) (sound : ∀ t ∈ registry.types, t.Sound) (hn : n ∈
    Order.sortedNodes p.nodes p.edges) :
    ∃ given, compileNode registry p.edges (compileAll registry p.nodes p.edges
      (Order.topological p.nodes p.edges)).outlets n 0 = .compiled given := by
  obtain ⟨i, hi, hplace⟩ := (Order.mem_sortedNodes n).1 hn
  obtain ⟨n', seen, hturn⟩ := Compile.exists_turn registry hi
  obtain rfl : n' = n := Option.some.inj (hturn.node.symm.trans hplace)
  obtain ⟨t, ht⟩ := hc.known n' (mem_of_turn hturn)
  obtain ⟨given, hgiven, -⟩ := hturn.compiled sound ht
  refine ⟨given, ?_⟩
  rw [← hgiven, Compile.copyAt_eq_zero hc.wellFormed.nodeIds hplace]
  apply Compile.compileNode_congr
  apply Resolve.connection?_congr
  -- what the sources of the edges into `n'` gave is found at its turn and in the end alike
  intro e he htarget
  obtain ⟨_, _, _, given', _, _, _, _, _, hseen, hfinal⟩ := hc.source sound hturn he htarget
  rw [hseen, hfinal]

/-- All nodes that are in the order are compiled, and no node fails or is skipped. -/
theorem stats (hc : Checked registry p) (sound : ∀ t ∈ registry.types, t.Sound) :
    (compileAll registry p.nodes p.edges (Order.topological p.nodes p.edges)).stats =
      ⟨(Order.topological p.nodes p.edges).length, 0, 0,
        p.nodes.length - (Order.topological p.nodes p.edges).length, 0, 0⟩ := by
  have hsettled := Compile.compileAll_settled registry p.edges hc.wellFormed.nodeIds
  rw [hsettled.stats, Compile.tally, ← length_sortedNodes]
  have hcompiled := fun n (hn : n ∈ Order.sortedNodes p.nodes p.edges) => hc.compiled sound hn
  simp only [CompileStats.mk.injEq, List.countP_map, List.countP_eq_length, List.countP_eq_zero,
    Function.comp_apply, and_true]
  refine ⟨fun n hn => ?_, fun n hn => ?_, fun n hn => ?_⟩
  all_goals
    obtain ⟨given, hgiven⟩ := hcompiled n hn
    rw [hgiven]
    simp [Compile.Outcome.isCompiled, Compile.Outcome.isSkipped, Compile.Outcome.isFailed]

end Checked

theorem findSink?_isSome {nodes : List Node} (h : ∃ n ∈ nodes, Compile.isSink registry n) :
    ∃ n ∈ nodes, Compile.isSink registry n ∧ Compile.findSink? registry nodes = some n := by
  obtain ⟨n, hn, hsink⟩ := h
  have hmem : n ∈ nodes.filter (Compile.isSink registry) := List.mem_filter.2 ⟨hn, hsink⟩
  rw [Compile.findSink?]
  cases hs : Compile.smallest? (nodes.filter (Compile.isSink registry)) with
  | none =>
    cases hl : nodes.filter (Compile.isSink registry) with
    | nil => simp [hl] at hmem
    | cons m ms => simp [hl, Compile.smallest?] at hs
  | some best =>
    have hbest := List.mem_filter.1 (Compile.smallest?_spec hs).1
    exact ⟨best, hbest.1, hbest.2, rfl⟩

theorem builtin_settings : ∀ t ∈ Registry.builtin.types, ∀ s ∈ t.info.settings,
    (t.info.inlet? s.name).isNone := by
  decide

end Patchbay
