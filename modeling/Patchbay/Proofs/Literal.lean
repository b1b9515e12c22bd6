import Mathlib
import Patchbay.Proofs.Failure
import Patchbay.Proofs.Interchange
import Patchbay.Proofs.Mono
import Patchbay.Proofs.NodeData

/-!
# Numbers and number nodes

A number can be stored for an inlet, or a node that holds it can be connected to the inlet. Either
way the node is compiled in the same company and its outlets are rendered as the same numbers.
-/

set_option autoImplicit false

namespace Patchbay

open Patchbay.Expr

variable {rate : Float32}

/-! ## What is compiled -/

namespace Resolve

variable {edges edges' : List Edge} {compiled compiled' : OutletMap} {n n' : Node}
  {info : NodeInfo}

theorem inletSignal_of_connection {inlet : Inlet} {edge : Edge} {e : Expr}
    (h : connection? edges compiled n inlet = some (edge, .expr e)) (l : Label) :
    (inletSignal edges compiled n inlet l).1 = .expr e := by
  rw [inletSignal, h]
  rfl

theorem inletSignal_of_none {inlet : Inlet} (h : connection? edges compiled n inlet = none)
    (l : Label) : (inletSignal edges compiled n inlet l).1 = .literal (literalOf n inlet) := by
  rw [inletSignal, h]
  rfl

/-- What is stored for an inlet is not among the settings. -/
theorem settings_set_inlet {inlet : Inlet} (hi : inlet ∈ info.inlets) (v : Param) :
    settings (n.set inlet.name v) info = settings n info := by
  apply Table.ext_find?
  intro key
  rw [settings, settings, Table.find?_filter, Table.find?_filter, Node.set, Table.find?_insert]
  split
  · next hkey =>
    rw [if_neg]
    rintro rfl
    rw [Option.isNone_iff_eq_none, NodeInfo.inlet?, List.find?_eq_none] at hkey
    exact hkey inlet hi (by simp)
  · rfl

/-- The one inlet of a name is given what all inlets of the name are given. -/
theorem inputs_signal_of_mem (distinct : (info.inlets.map Inlet.name).Nodup) {inlet : Inlet}
    (hi : inlet ∈ info.inlets) {s : Signal}
    (hs : ∀ l, (inletSignal edges compiled n inlet l).1 = s) (l : Label) :
    (inputs n info edges compiled l).1.signal inlet.name = .ok s := by
  refine inputs_signal (List.mem_map_of_mem hi) (fun inlet' hi' hname l => ?_) l
  rw [List.inj_on_of_nodup_map distinct hi' hi hname]
  exact hs l

/-- Two nodes that differ in one control inlet, for which one of them has a number and the other
one a connection that is this number for ever. -/
theorem inputs_like (distinct : (info.inlets.map Inlet.name).Nodup) {inlet : Inlet} {v : Float32}
    {edge : Edge} {e : Expr} (hcontrol : inlet.name ∉ info.audioInlets)
    (hnone : connection? edges compiled n inlet = none) (hv : literalOf n inlet = v)
    (hedge : connection? edges' compiled' n' inlet = some (edge, .expr e))
    (hsteady : Expr.Steady rate v e)
    (hother : ∀ i ∈ info.inlets, i.name ≠ inlet.name →
      connection? edges compiled n i = connection? edges' compiled' n' i ∧
        literalOf n i = literalOf n' i)
    (hexpr : ∀ i edge s, connection? edges compiled n i = some (edge, s) → ∃ x, s = .expr x)
    (hi : inlet ∈ info.inlets) (hsettings : settings n info = settings n' info) :
    Build.Relates (inputs n info edges compiled) (inputs n' info edges' compiled')
      (Inputs.Like rate info) := by
  intro l l'
  refine ⟨hsettings, fun name hname => ?_⟩
  obtain ⟨i, hmem, rfl⟩ := List.mem_map.1 hname
  by_cases hne : i.name = inlet.name
  · obtain rfl := List.inj_on_of_nodup_map distinct hmem hi hne
    exact ⟨.literal v, .expr e,
      inputs_signal_of_mem distinct hi (fun l => by rw [inletSignal_of_none hnone, hv]) l,
      inputs_signal_of_mem distinct hi (inletSignal_of_connection hedge) l',
      .connected hsteady, fun h => absurd h hcontrol⟩
  · obtain ⟨hconn, hliteral⟩ := hother i hmem hne
    cases hc : connection? edges compiled n i with
    | none =>
      refine ⟨.literal (literalOf n i), .literal (literalOf n i),
        inputs_signal_of_mem distinct hmem (inletSignal_of_none hc) l,
        inputs_signal_of_mem distinct hmem (fun l => ?_) l', .literal _, fun _ => rfl⟩
      rw [inletSignal_of_none (hconn ▸ hc), hliteral]
    | some c =>
      obtain ⟨edge', s⟩ := c
      obtain ⟨x, rfl⟩ := hexpr i edge' s hc
      exact ⟨.expr x, .expr x,
        inputs_signal_of_mem distinct hmem (inletSignal_of_connection hc) l,
        inputs_signal_of_mem distinct hmem (inletSignal_of_connection (hconn ▸ hc)) l',
        .expr (alike_refl rate x), fun _ => rfl⟩

end Resolve

namespace Compile

variable {registry : Registry} {edges edges' : List Edge} {compiled compiled' : OutletMap}
  {n n' : Node} {t : NodeType}

theorem compileNode_like (ht : registry.find? n.type = some t) (hi : t.Interchanges)
    (h0 : (0.0 : Float32) < rate) (hf : rate.isFinite = true)
    (h : Build.Relates (Resolve.inputs n t.info edges compiled)
      (Resolve.inputs n' t.info edges' compiled') (Inputs.Like rate t.info))
    (hid : n'.id = n.id) (htype : n'.type = n.type)
    (hfinite : t.info.id = "math" →
      ∀ l, FoldsFinite (Resolve.inputs n t.info edges compiled l).1) (copy : Nat) :
    ∃ o o', compileNode registry edges compiled n copy = .compiled o ∧
      compileNode registry edges' compiled' n' copy = .compiled o' ∧
      Outputs.Like rate t.info.outlets o o' := by
  have hresult : Build.Relates (do
      let inputs ← Resolve.inputs n t.info edges compiled
      (t.compile inputs n.id).run) (do
      let inputs ← Resolve.inputs n' t.info edges' compiled'
      (t.compile inputs n'.id).run) fun r r' =>
        ∃ o o', r = .ok o ∧ r' = .ok o' ∧ Outputs.Like rate t.info.outlets o o' := by
    have hinputs : Build.Relates (Resolve.inputs n t.info edges compiled)
        (Resolve.inputs n' t.info edges' compiled') fun i i' =>
          Inputs.Like rate t.info i i' ∧ (t.info.id = "math" → FoldsFinite i) :=
      fun l l' => ⟨h l l', fun hmath => hfinite hmath l⟩
    rw [hid]
    exact .bind hinputs fun i i' hlike => hi rate i i' n.id h0 hf hlike.1 hlike.2
  obtain ⟨o, o', ho, ho', hlike⟩ := hresult ⟨.node n.id copy, 0⟩ ⟨.node n'.id copy, 0⟩
  have hgiven : ∀ name ∈ t.info.outlets, ∃ s, o.find? name = some s := fun name hn => by
    obtain ⟨x, x', hx, -⟩ := hlike name hn
    exact ⟨_, hx⟩
  have hgiven' : ∀ name ∈ t.info.outlets, ∃ s, o'.find? name = some s := fun name hn => by
    obtain ⟨x, x', -, hx, -⟩ := hlike name hn
    exact ⟨_, hx⟩
  refine ⟨o, o', ?_, ?_, hlike⟩
  · simp only [compileNode, ht, Build.within, ho, Except.bind, checkOutlets_ok hgiven]
  · simp only [compileNode, htype, ht, Build.within, ho', Except.bind, checkOutlets_ok hgiven']

/-- A number node without a connection is its number for ever. -/
theorem number_yields {i : Inputs} {v : Float32} (h : i.signal "value" = .ok (.literal v))
    (id : String) :
    NodeBuild.Yields (NodeType.number.compile i id) fun o =>
      ∃ e, o.find? "signal" = some (.expr e) ∧ ∀ rate, Expr.Steady rate v e := by
  have hget : NodeBuild.Yields (i.get "value") (· = .literal v) := fun l => ⟨_, h, rfl⟩
  have hkeyed : NodeBuild.Yields (i.keyed "value" id) fun e => ∀ rate, Expr.Steady rate v e := by
    refine .bind hget fun s hs => .lift ?_
    rw [hs]
    exact fun l rate => steady_const l _ v
  refine .bind hkeyed fun e he => ?_
  have hmeter : Build.Yields (Build.meter id (.expr e)) fun e => ∀ rate, Expr.Steady rate v e :=
    fun l rate => steady_meter (he rate) l id none
  exact .bind (.lift hmeter) fun e he => .pure ⟨e, rfl, he⟩

theorem compileNode_number (hnumber : n.type = "number")
    (hnone : Resolve.connection? edges compiled n ⟨"value", 0.0⟩ = none) (copy : Nat) :
    ∃ o e, compileNode .builtin edges compiled n copy = .compiled o ∧
      o.find? "signal" = some (.expr e) ∧
      ∀ rate, Expr.Steady rate (Resolve.literalOf n ⟨"value", 0.0⟩) e := by
  have hfind : Registry.builtin.find? n.type = some NodeType.number := by
    rw [hnumber]
    rfl
  have hinputs : Build.Yields (Resolve.inputs n NodeType.number.info edges compiled) fun i =>
      i.signal "value" = .ok (.literal (Resolve.literalOf n ⟨"value", 0.0⟩)) :=
    Resolve.inputs_signal_of_mem (by decide) (by simp [NodeType.number])
      (Resolve.inletSignal_of_none hnone)
  obtain ⟨o, ho, e, he, hsteady⟩ := compileNode_yields hfind hinputs
    (fun i hi => number_yields hi n.id)
    (by rintro o ⟨e, he, -⟩; simp [NodeType.number, he]) copy
  exact ⟨o, e, ho, he, hsteady⟩

end Compile

/-! ## Two patches -/

namespace Order

variable {nodes : List Node}

/-- An edge from a node that no edge leads to changes nothing about what is sorted. -/
theorem mem_sortedNodes_link (distinct : (nodes.map Node.id).Nodup) (edges : List Edge)
    {link : Edge} {m : Node} (hm : m ∈ nodes) (hsource : link.source = m.id)
    (hnone : ∀ e ∈ edges ++ [link], e.target ≠ m.id) (n : Node) :
    n ∈ sortedNodes nodes (edges ++ [link]) ↔ n ∈ sortedNodes nodes edges := by
  have harranged := sortedNodes_arranged (edges ++ [link]) distinct
  have harranged' := sortedNodes_arranged edges distinct
  by_cases hn : n ∈ nodes
  · refine harranged.mem_iff_part harranged' (List.Subset.refl _)
      (List.subset_append_left _ _) (fun k _ j hj hlead => ?_) hn
    obtain ⟨e, he, hs, ht⟩ := hlead
    rcases List.mem_append.1 he with he | he
    · exact .inr ⟨hj, e, he, hs, ht⟩
    · left
      rw [List.mem_singleton.1 he, hsource] at hs
      rw [← eq_of_id distinct hm hj hs]
      refine (harranged.mem_iff m).2 ⟨hm, fun j _ hlead => ?_⟩
      obtain ⟨e, he, -, ht⟩ := hlead
      exact absurd ht (hnone e he)
  · exact iff_of_false (fun h => hn ((harranged.mem_iff n).1 h).1)
      fun h => hn ((harranged'.mem_iff n).1 h).1

end Order

namespace Compile

/-- If two patches differ in what leads to one node, what leads there is found to be the same as
far as it is in both. -/
theorem settled_agree_before {registry : Registry} {ns ns' : List Node} {edges edges' : List Edge}
    {dropped dropped' : Nat} {p p' : Pass} {n : Node} (hc : Clear edges ns)
    (h : Settled registry edges ns dropped p) (h' : Settled registry edges' ns' dropped' p')
    (hn : n ∈ ns) (hmem : ∀ k : Node, k.id ≠ n.id → (k ∈ ns ↔ k ∈ ns'))
    (hfind : ∀ id, id ≠ n.id → ∀ inlet,
      edges.find? (·.feeds id inlet) = edges'.find? (·.feeds id inlet)) :
    ∀ e ∈ edges, e.target = n.id → p.outlets.find? e.source = p'.outlets.find? e.source := by
  obtain ⟨pre, post, hns⟩ := List.append_of_mem hn
  intro e he ht
  have hne (id : String) (hid : id ∉ (n :: post).map Node.id) : id ≠ n.id := by
    rintro rfl
    exact hid (by simp)
  refine settled_agree_on (· ∉ (n :: post).map Node.id) hc h h' (fun k hk => hmem k (hne _ hk))
    (fun k hk hpart hsources inlet => ?_) ((hc pre post n hns).2 e he ht)
  rw [← Resolve.connection?_edges (hfind k.id (hne _ hpart) inlet.name)]
  refine Resolve.connection?_congr (fun e he ht => hsources e he ht ?_) inlet
  -- a node with such an id stands before `n`, and what leads to it comes from before it
  have hpre : k ∈ pre := by
    rw [hns] at hk
    exact (List.mem_append.1 hk).resolve_right fun hk => hpart (List.mem_map_of_mem hk)
  obtain ⟨a, b, rfl⟩ := List.append_of_mem hpre
  have hbefore := (hc a (b ++ n :: post) k (by simp [hns])).2 e he ht
  exact fun hs => hbefore (by
    rw [List.map_cons, List.map_append]
    exact List.mem_cons_of_mem _ (List.mem_append_right _ hs))

/-- What is found of a node can be rendered by itself. -/
theorem outlet_coherent {registry : Registry} (sound : ∀ t ∈ registry.types, t.Sound)
    {nodes : List Node} {edges : List Edge} {id name : String} {o : Outputs} {x : Expr}
    (ho : (compileAll registry nodes edges (Order.topological nodes edges)).outlets.find? id =
      some o) (hx : o.find? name = some (.expr x)) :
    Coherent (under [x, Renderer.silentRoot]) := by
  obtain ⟨known, hb⟩ := compileAll_built edges sound (Order.topological_sorted nodes edges).nodup
  obtain ⟨e, he, heq⟩ := hb.within _ _ ho _ _ hx
  cases heq
  have hparts := parts_of_grown hb.grown x he
  have hscope (f : Expr) (hf : f ∈ parts x) : f.label ≠ Renderer.silentRoot.label := by
    obtain ⟨i, -, n, -, hscope, -⟩ := hb.scope f (hparts f hf)
    intro heq
    rw [heq] at hscope
    cases hscope
  intro f hf g hg heq
  rcases mem_under_silent.1 hf with hf | rfl
  · rcases mem_under_silent.1 hg with hg | rfl
    · exact hb.grown.coherent (hparts f hf) (hparts g hg) heq
    · exact absurd heq (hscope f hf)
  · rcases mem_under_silent.1 hg with hg | rfl
    · exact absurd heq.symm (hscope g hg)
    · rfl

end Compile

/-- The edge that takes the number of `m` to an inlet of `n`. -/
def Node.link (m n : Node) (id : String) (inlet : Inlet) : Edge :=
  ⟨id, m.id, "signal", n.id, inlet.name⟩

/-- A control inlet that no edge leads to, and a number node that could be connected to it. -/
structure Spare (nodes : List Node) (edges : List Edge) (n : Node) (t : NodeType) (inlet : Inlet)
    (m : Node) : Prop where
  distinct : (nodes.map Node.id).Nodup
  node : n ∈ nodes
  type : Registry.builtin.find? n.type = some t
  declared : inlet ∈ t.info.inlets
  control : inlet.name ∉ t.info.audioInlets
  free : ∀ e ∈ edges, e.feeds n.id inlet.name = false
  number : m ∈ nodes
  numberType : m.type = "number"
  unfed : ∀ e ∈ edges, e.target ≠ m.id
  apart : n.id ≠ m.id

/-- What two compilations leave of a node: nothing, or all its outlets, each rendered as the same
numbers. -/
inductive SameOutlets (names : List String) : Option Outputs → Option Outputs → Prop
  | none : SameOutlets names none none
  | some {o o' : Outputs} (h : ∀ name ∈ names, ∃ x x', o.find? name = some (.expr x) ∧
      o'.find? name = some (.expr x') ∧
      ∀ rate frames, SameRendering (renderMono x rate frames) (renderMono x' rate frames)) :
      SameOutlets names (some o) (some o')

theorem builtin_inlets : ∀ t ∈ Registry.builtin.types, (t.info.inlets.map Inlet.name).Nodup := by
  decide

namespace Spare

open Patchbay.Compile Patchbay.Order

variable {nodes : List Node} {edges : List Edge} {n m : Node} {t : NodeType} {inlet : Inlet}
  {p : Param} {v : Float32}

/-- The nodes of the patch with a value stored for the inlet. -/
def stored (nodes : List Node) (n : Node) (inlet : Inlet) (p : Param) : List Node :=
  replaceNode nodes n.id (n.set inlet.name p)

/-- The edges of the patch with the number node connected. -/
def connected (edges : List Edge) (n m : Node) (inlet : Inlet) (id : String) : List Edge :=
  edges ++ [m.link n id inlet]

theorem distinct_stored (h : Spare nodes edges n t inlet m) :
    ((stored nodes n inlet p).map Node.id).Nodup := by
  have hids : (stored nodes n inlet p).map Node.id = nodes.map Node.id := map_id_replaceNode rfl
  rw [hids]
  exact h.distinct

theorem sorted_stored : sortedNodes (stored nodes n inlet p) edges =
    replaceNode (sortedNodes nodes edges) n.id (n.set inlet.name p) :=
  sortedNodes_map edges fun k => by
    split
    · next hid => exact hid.symm
    · rfl

theorem mem_sorted_stored (h : Spare nodes edges n t inlet m) :
    n.set inlet.name p ∈ sortedNodes (stored nodes n inlet p) edges ↔
      n ∈ sortedNodes nodes edges := by
  rw [sorted_stored, replaceNode, List.mem_map]
  constructor
  · rintro ⟨k, hk, heq⟩
    have hid : k.id = n.id := by
      by_contra hne
      rw [if_neg hne] at heq
      exact hne (heq ▸ rfl)
    have hmem := ((sortedNodes_arranged edges h.distinct).mem_iff k).1 hk
    exact eq_of_id h.distinct hmem.1 h.node hid ▸ hk
  · exact fun hn => ⟨n, hn, if_pos rfl⟩

theorem connected_unfed (h : Spare nodes edges n t inlet m) (id : String) :
    ∀ e ∈ connected edges n m inlet id, e.target ≠ m.id := by
  intro e he
  rcases List.mem_append.1 he with he | he
  · exact h.unfed e he
  · rw [List.mem_singleton.1 he]
    exact h.apart

theorem mem_sorted_connected (h : Spare nodes edges n t inlet m) (id : String) (k : Node) :
    k ∈ sortedNodes nodes (connected edges n m inlet id) ↔ k ∈ sortedNodes nodes edges :=
  mem_sortedNodes_link h.distinct edges h.number rfl (h.connected_unfed id) k

theorem mem_sorted_iff (h : Spare nodes edges n t inlet m) (id : String) {k : Node}
    (hk : k.id ≠ n.id) : k ∈ sortedNodes (stored nodes n inlet p) edges ↔
      k ∈ sortedNodes nodes (connected edges n m inlet id) := by
  rw [h.mem_sorted_connected, sorted_stored, replaceNode, List.mem_map]
  constructor
  · rintro ⟨j, hj, rfl⟩
    split
    · next hid =>
      rw [if_pos hid] at hk
      exact absurd rfl hk
    · exact hj
  · exact fun hmem => ⟨k, hmem, if_neg hk⟩

theorem find?_connected (id : String) {node name : String} (h : node = n.id → name ≠ inlet.name) :
    edges.find? (·.feeds node name) =
      (connected edges n m inlet id).find? (·.feeds node name) := by
  have hlink : [m.link n id inlet].find? (·.feeds node name) = none := by
    rw [List.find?_eq_none]
    intro e he hfeeds
    rw [List.mem_singleton.1 he, Edge.feeds_iff] at hfeeds
    exact h (congrArg Prod.fst hfeeds).symm (congrArg Prod.snd hfeeds).symm
  rw [connected, List.find?_append, hlink, Option.or_none]

/-- The outlets of all nodes of a patch. -/
def outletsOf (nodes : List Node) (edges : List Edge) : OutletMap :=
  (compileAll .builtin nodes edges (topological nodes edges)).outlets

/-- All other connections of the node are the same in both patches. -/
theorem connection?_same (h : Spare nodes edges n t inlet m) (hn : n ∈ sortedNodes nodes edges)
    (id : String) {i : Inlet} (hi : i.name ≠ inlet.name) :
    Resolve.connection? edges (outletsOf (stored nodes n inlet p) edges) (n.set inlet.name p) i =
      Resolve.connection? (connected edges n m inlet id)
        (outletsOf nodes (connected edges n m inlet id)) n i := by
  have distinct := h.distinct_stored (p := p)
  have hbefore := settled_agree_before (n := n.set inlet.name p)
    (clear_of_arranged distinct (sortedNodes_arranged edges distinct))
    (compileAll_settled .builtin edges distinct)
    (compileAll_settled .builtin (connected edges n m inlet id) h.distinct)
    (h.mem_sorted_stored.2 hn) (fun k hk => h.mem_sorted_iff id hk) fun node hne name =>
      find?_connected id fun hid => absurd hid hne
  have hfind : edges.find? (·.feeds n.id i.name) =
      (connected edges n m inlet id).find? (·.feeds n.id i.name) :=
    find?_connected id fun _ => hi
  rw [← Resolve.connection?_edges hfind]
  exact Resolve.connection?_congr hbefore i

theorem find?_free (h : Spare nodes edges n t inlet m) :
    edges.find? (·.feeds n.id inlet.name) = none :=
  List.find?_eq_none.2 fun e he => by simp [h.free e he]

theorem connection?_stored (h : Spare nodes edges n t inlet m) (compiled : OutletMap) :
    Resolve.connection? edges compiled (n.set inlet.name p) inlet = none := by
  show Option.bind (edges.find? (·.feeds n.id inlet.name)) _ = none
  rw [h.find?_free, Option.bind_none]

/-- The number node comes before the node it is connected to and is its number for ever. -/
theorem connection?_connected (h : Spare nodes edges n t inlet m)
    (hn : n ∈ sortedNodes nodes edges) (id : String) :
    ∃ e, Resolve.connection? (connected edges n m inlet id)
        (outletsOf nodes (connected edges n m inlet id)) n inlet =
          some (m.link n id inlet, .expr e) ∧
      ∀ rate, Expr.Steady rate (Resolve.literalOf m ⟨"value", 0.0⟩) e := by
  have hm : m ∈ sortedNodes nodes (connected edges n m inlet id) := by
    have harranged := sortedNodes_arranged (connected edges n m inlet id) h.distinct
    refine ((harranged.mem_iff n).1 ((h.mem_sorted_connected id n).2 hn)).2 m h.number ?_
    exact ⟨m.link n id inlet, by simp [connected], rfl, rfl⟩
  have hunfed : Resolve.connection? (connected edges n m inlet id)
      (outletsOf nodes (connected edges n m inlet id)) m ⟨"value", 0.0⟩ = none := by
    have hnone : (connected edges n m inlet id).find? (·.feeds m.id "value") = none := by
      refine List.find?_eq_none.2 fun e he hfeeds => ?_
      exact h.connected_unfed id e he (congrArg Prod.fst ((Edge.feeds_iff _ _ _).1 hfeeds))
    rw [Resolve.connection?, hnone]
    rfl
  obtain ⟨o, e, hcompiled, he, hsteady⟩ := compileNode_number h.numberType hunfed 0
  have hfound : (outletsOf nodes (connected edges n m inlet id)).find? m.id = some o :=
    ((compileAll_settled .builtin (connected edges n m inlet id) h.distinct).here m hm).trans
      (congrArg Outcome.outlets? hcompiled)
  have hfirst : (connected edges n m inlet id).find? (·.feeds n.id inlet.name) =
      some (m.link n id inlet) := by
    rw [connected, List.find?_append, h.find?_free]
    simp [Node.link, Edge.feeds]
  have hsource : Resolve.sourceOf (outletsOf nodes (connected edges n m inlet id))
      (m.link n id inlet) = some (.expr e) := by
    show Option.bind ((outletsOf nodes (connected edges n m inlet id)).find? m.id) _ = _
    rw [hfound, Option.bind_some]
    exact he
  refine ⟨e, ?_, hsteady⟩
  rw [Resolve.connection?, hfirst]
  show Option.bind (Resolve.sourceOf _ (m.link n id inlet)) _ = _
  rw [hsource]
  rfl

theorem literalOf_set (hp : p.number? = some v) :
    Resolve.literalOf (n.set inlet.name p) inlet = v := by
  rw [Resolve.literalOf, Node.set, Table.find?_insert, if_pos rfl, Option.bind_some, hp,
    Option.getD_some]

theorem literalOf_set_ne {name : String} {i : Inlet} (hi : i.name ≠ name) :
    Resolve.literalOf (n.set name p) i = Resolve.literalOf n i := by
  rw [Resolve.literalOf, Resolve.literalOf, Node.set, Table.find?_insert, if_neg (Ne.symm hi)]

theorem mem_builtin (h : Spare nodes edges n t inlet m) : t ∈ Registry.builtin.types :=
  List.mem_of_find?_eq_some h.type

/-- The node sees the same in both patches, but for the number that it has in the one and is
connected to in the other. -/
theorem inputs_like (h : Spare nodes edges n t inlet m) (hn : n ∈ sortedNodes nodes edges)
    (hp : p.number? = some (Resolve.literalOf m ⟨"value", 0.0⟩)) (id : String) (rate : Float32) :
    Build.Relates
      (Resolve.inputs (n.set inlet.name p) t.info edges
        (outletsOf (stored nodes n inlet p) edges))
      (Resolve.inputs n t.info (connected edges n m inlet id)
        (outletsOf nodes (connected edges n m inlet id)))
      (Inputs.Like rate t.info) := by
  obtain ⟨e, hedge, hsteady⟩ := h.connection?_connected hn id
  refine Resolve.inputs_like (builtin_inlets t h.mem_builtin) h.control
    (h.connection?_stored _) (literalOf_set hp) hedge (hsteady rate)
    (fun i _ hi => ⟨h.connection?_same hn id hi, literalOf_set_ne hi⟩) (fun i edge s hs => ?_)
    h.declared (Resolve.settings_set_inlet h.declared p)
  obtain ⟨known, hb⟩ := compileAll_built edges builtin_sound
    (topological_sorted (stored nodes n inlet p) edges).nodup
  simp only [Resolve.connection?, Option.bind_eq_bind, Option.bind_eq_some_iff, Option.pure_def,
    Option.some.injEq, Prod.mk.injEq] at hs
  obtain ⟨edge, -, s, hsource, rfl, rfl⟩ := hs
  obtain ⟨x, -, rfl⟩ := Resolve.sourceOf_within hb.within hsource
  exact ⟨x, rfl⟩

/-- Both compilations leave the node with all its outlets, and these sound alike. -/
theorem outlets_like (h : Spare nodes edges n t inlet m) (hn : n ∈ sortedNodes nodes edges)
    (hp : p.number? = some (Resolve.literalOf m ⟨"value", 0.0⟩)) (id : String)
    (hfinite : t.info.id = "math" → ∀ l, FoldsFinite
      (Resolve.inputs (n.set inlet.name p) t.info edges
        (outletsOf (stored nodes n inlet p) edges) l).1) :
    ∃ o o', (outletsOf (stored nodes n inlet p) edges).find? n.id = some o ∧
      (outletsOf nodes (connected edges n m inlet id)).find? n.id = some o' ∧
      ∀ rate, (0.0 : Float32) < rate → rate.isFinite = true →
        Outputs.Like rate t.info.outlets o o' := by
  have htype : Registry.builtin.find? (n.set inlet.name p).type = some t := h.type
  have hnode (rate : Float32) (h0 : (0.0 : Float32) < rate) (hf : rate.isFinite = true) :
      ∃ o o', compileNode .builtin edges (outletsOf (stored nodes n inlet p) edges)
          (n.set inlet.name p) 0 = .compiled o ∧
        compileNode .builtin (connected edges n m inlet id)
          (outletsOf nodes (connected edges n m inlet id)) n 0 = .compiled o' ∧
        Outputs.Like rate t.info.outlets o o' :=
    compileNode_like htype (builtin_interchanges t h.mem_builtin) h0 hf
      (h.inputs_like hn hp id rate) rfl rfl hfinite 0
  obtain ⟨o, o', ho, ho', -⟩ := hnode 48000.0 (by decide) (by decide)
  refine ⟨o, o', ?_, ?_, fun rate h0 hf => ?_⟩
  · exact ((compileAll_settled .builtin edges h.distinct_stored).here _
      (h.mem_sorted_stored.2 hn)).trans (congrArg Outcome.outlets? ho)
  · exact ((compileAll_settled .builtin (connected edges n m inlet id) h.distinct).here n
      ((h.mem_sorted_connected id n).2 hn)).trans (congrArg Outcome.outlets? ho')
  · -- at every rate the node is compiled to these outlets
    obtain ⟨o₁, o₁', h₁, h₁', hlike⟩ := hnode rate h0 hf
    rw [ho] at h₁
    rw [ho'] at h₁'
    cases h₁
    cases h₁'
    exact hlike

theorem find?_unsorted (distinct : (nodes.map Node.id).Nodup) (hn : n ∈ nodes)
    (h : n ∉ sortedNodes nodes edges) : (outletsOf nodes edges).find? n.id = none := by
  refine (compileAll_settled .builtin edges distinct).nowhere n.id fun hid => ?_
  obtain ⟨k, hk, hid⟩ := List.mem_map.1 hid
  have hmem := (((sortedNodes_arranged edges distinct).mem_iff k).1 hk).1
  exact h (eq_of_id distinct hmem hn hid ▸ hk)

end Spare

open Patchbay.Spare

/-- A number may be stored for a control inlet or come from a number node: what is left of the
node is the same, and so is whether anything is. Only the result of an operation on two numbers has
to be finite. -/
theorem renderMono_connected {nodes : List Node} {edges : List Edge} {n m : Node} {t : NodeType}
    {inlet : Inlet} {p : Param} (h : Spare nodes edges n t inlet m)
    (hp : p.number? = some (Resolve.literalOf m ⟨"value", 0.0⟩))
    (hfinite : t.info.id = "math" → ∀ l, FoldsFinite
      (Resolve.inputs (n.set inlet.name p) t.info edges
        (outletsOf (stored nodes n inlet p) edges) l).1) (id : String) :
    SameOutlets t.info.outlets ((outletsOf (stored nodes n inlet p) edges).find? n.id)
        ((outletsOf nodes (connected edges n m inlet id)).find? n.id) ∧
      (((outletsOf (stored nodes n inlet p) edges).find? n.id).isSome ↔
        n ∈ Order.sortedNodes nodes edges) := by
  by_cases hn : n ∈ Order.sortedNodes nodes edges
  · obtain ⟨o, o', ho, ho', hlike⟩ := h.outlets_like hn hp id hfinite
    rw [ho, ho']
    refine ⟨.some fun name hname => ?_, by simp [hn]⟩
    obtain ⟨x, x', hx, hx', -⟩ := hlike 48000.0 (by decide) (by decide) name hname
    have hs := Compile.outlet_coherent builtin_sound ho hx
    have hs' := Compile.outlet_coherent builtin_sound ho' hx'
    refine ⟨x, x', hx, hx', fun rate frames =>
      sameRendering_of_akin hs hs' (fun hrate => ?_) frames⟩
    obtain ⟨hf, h0⟩ := Renderer.checkSampleRate_ok_iff.1 hrate
    obtain ⟨y, y', hy, hy', hakin⟩ := hlike rate h0 hf name hname
    rw [hx] at hy
    rw [hx'] at hy'
    cases hy
    cases hy'
    exact hakin
  · have hstored := find?_unsorted (h.distinct_stored (p := p))
      (List.mem_map.2 ⟨n, h.node, if_pos rfl⟩) (mt h.mem_sorted_stored.1 hn)
    have hconnected := find?_unsorted h.distinct h.node (mt (h.mem_sorted_connected id n).1 hn)
    change (outletsOf (stored nodes n inlet p) edges).find? n.id = none at hstored
    rw [hstored, hconnected]
    exact ⟨.none, by simp [hn]⟩

/-- A product of -30 with the 0 that stands for nothing: a negative zero at once, a positive one
from the connection. -/
theorem renderMono_connected_product :
    let k : Node := ⟨"k", "number", none, .ofList [("value", .number (-30.0))]⟩
    let n : Node := ⟨"p", "math", none, .ofList [("operation", .text "multiply")]⟩
    let inlet : Inlet := ⟨"a", 0.0⟩
    let before := outletsOf (stored [k, n] n inlet (.number (-30.0))) []
    Spare [k, n] [] n NodeType.math inlet k ∧
      (∀ l, FoldsFinite (Resolve.inputs (n.set "a" (.number (-30.0))) NodeType.math.info []
        before l).1) ∧
      SameOutlets ["signal"] (before.find? "p")
        ((outletsOf [k, n] [⟨"kp", "k", "signal", "p", "a"⟩]).find? "p") ∧
      (before.find? "p").isSome := by
  intro k n inlet before
  have h : Spare [k, n] [] n NodeType.math inlet k :=
    ⟨by decide, by simp, rfl, by simp [NodeType.math, inlet], by decide, by simp, by simp, rfl,
      by simp, by decide⟩
  have hfinite (l : Label) : FoldsFinite (Resolve.inputs (n.set "a" (.number (-30.0)))
      NodeType.math.info [] before l).1 := by
    have hsignal (i : Inlet) (hi : i ∈ NodeType.math.info.inlets) :=
      Resolve.inputs_signal_of_mem (by decide) hi
        (@Resolve.inletSignal_of_none [] before (n.set "a" (.number (-30.0))) i rfl) l
    have hoperation : (Resolve.inputs (n.set "a" (.number (-30.0))) NodeType.math.info [] before
      l).1.choice "operation" BinaryOp.ofMathName? .add = .mul := rfl
    intro a b ha hb
    rw [hoperation]
    cases (hsignal inlet h.declared).symm.trans ha
    cases (hsignal ⟨"b", 0.0⟩ (by simp [NodeType.math])).symm.trans hb
    decide
  obtain ⟨hsame, hsome⟩ := renderMono_connected h rfl (fun _ => hfinite) "kp"
  exact ⟨h, hfinite, hsame, hsome.2 (List.mem_of_getElem? (i := 1) rfl)⟩

end Patchbay
