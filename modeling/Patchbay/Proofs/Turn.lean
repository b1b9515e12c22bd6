import Mathlib
import Patchbay.Proofs.NodeOrder
import Patchbay.Proofs.Relational
import Patchbay.Proofs.Target

/-!
# The turn of a node

A node is compiled when its place in the order comes up, from what the places before it have left
behind. With distinct ids nothing that happens later touches what it gives, so every node behind
it sees exactly that.
-/

set_option autoImplicit false

namespace Patchbay

namespace Resolve

variable {edges : List Edge} {compiled : OutletMap} {node : Node}

theorem inletSignals_fst (inlets : List Inlet) (l : Label) :
    (inletSignals edges compiled node inlets l).1.map Prod.fst = inlets.map Inlet.name := by
  induction inlets generalizing l with
  | nil => rfl
  | cons inlet inlets ih =>
    show inlet.name :: (inletSignals edges compiled node inlets _).1.map Prod.fst = _
    rw [ih, List.map_cons]

theorem mem_inletSignals {inlets : List Inlet} {l : Label} {entry : String × Signal}
    (h : entry ∈ (inletSignals edges compiled node inlets l).1) :
    ∃ inlet ∈ inlets, ∃ l', entry = (inlet.name, (inletSignal edges compiled node inlet l').1) := by
  induction inlets generalizing l with
  | nil => cases h
  | cons inlet inlets ih =>
    rcases List.mem_cons.1 h with rfl | h
    · exact ⟨inlet, by simp, l, rfl⟩
    · obtain ⟨inlet', hmem, l', rfl⟩ := ih h
      exact ⟨inlet', by simp [hmem], l', rfl⟩

/-- What an inlet is given is what all inlets of its name agree on. -/
theorem inputs_signal {info : NodeInfo} {name : String} {s : Signal}
    (hname : name ∈ info.inlets.map Inlet.name)
    (hs : ∀ inlet ∈ info.inlets, inlet.name = name →
      ∀ l, (inletSignal edges compiled node inlet l).1 = s) (l : Label) :
    (inputs node info edges compiled l).1.signal name = .ok s := by
  have hfind : (inputs node info edges compiled l).1.signals.find? name = some s := by
    rw [← @inletSignals_fst edges compiled node info.inlets l] at hname
    obtain ⟨s', hmem, hfound⟩ := Table.find?_ofList_of_mem hname
    obtain ⟨inlet, hin, l', heq⟩ := mem_inletSignals hmem
    rw [Prod.mk.injEq] at heq
    rw [heq.2, hs inlet hin heq.1.symm l'] at hfound
    exact hfound
  rw [Inputs.signal, hfind]

end Resolve

namespace Compile

variable {registry : Registry} {nodes : List Node} {edges : List Edge} {pre post : List Nat}
  {i : Nat} {n : Node} {seen : OutletMap}

/-- The compiler comes to a node and sees what the places before it have left behind. -/
structure Turn (registry : Registry) (nodes : List Node) (edges : List Edge) (i : Nat) (n : Node)
    (seen : OutletMap) : Prop where
  node : nodes[i]? = some n
  place : ∃ pre post, Order.topological nodes edges = pre ++ i :: post ∧
    seen = (compileAll registry nodes edges pre).outlets

/-- A node is compiled to what its type makes of its inputs. -/
theorem compileNode_yields {t : NodeType} (ht : registry.find? n.type = some t)
    {P : Inputs → Prop} {Q : Outputs → Prop}
    (hinputs : Build.Yields (Resolve.inputs n t.info edges seen) P)
    (hcompile : ∀ inputs, P inputs → NodeBuild.Yields (t.compile inputs n.id) Q)
    (hgiven : ∀ o, Q o → ∀ name ∈ t.info.outlets, ∃ s, o.find? name = some s) (copy : Nat) :
    ∃ o, compileNode registry edges seen n copy = .compiled o ∧ Q o := by
  have hresult : Build.Yields (do
      let inputs ← Resolve.inputs n t.info edges seen
      (t.compile inputs n.id).run) fun r => ∃ o, r = .ok o ∧ Q o := .bind hinputs hcompile
  obtain ⟨o, ho, hq⟩ := hresult ⟨.node n.id copy, 0⟩
  refine ⟨o, ?_, hq⟩
  simp only [compileNode, ht, Build.within, ho, Except.bind, checkOutlets_ok (hgiven o hq)]

theorem foldl_outlets {p q : Pass} (h : p.outlets = q.outlets) :
    (pre.foldl (compileAt registry nodes edges) p).outlets =
      (pre.foldl (compileAt registry nodes edges) q).outlets := by
  induction pre generalizing p q with
  | nil => exact h
  | cons i pre ih =>
    apply ih
    rw [compileAt, compileAt, h]
    split
    · apply Table.ext_find?
      intro id
      rw [add_find?, add_find?, h]
    · exact h

theorem compileAll_append (pre post : List Nat) :
    (compileAll registry nodes edges (pre ++ post)).outlets =
      (post.foldl (compileAt registry nodes edges)
        (compileAll registry nodes edges pre)).outlets := by
  rw [compileAll, List.foldl_append]
  exact foldl_outlets (foldl_outlets rfl)

/-- What is found under an id is not touched by other nodes, nor by nodes of an unknown type. -/
theorem foldl_find? {id : String} (h : ∀ i ∈ post, ∀ n, nodes[i]? = some n → n.id = id →
    registry.find? n.type = none) (p : Pass) :
    (post.foldl (compileAt registry nodes edges) p).outlets.find? id = p.outlets.find? id := by
  induction post generalizing p with
  | nil => rfl
  | cons i post ih =>
    rw [List.foldl_cons, ih fun j hj => h j (by simp [hj]), compileAt]
    split
    · next n hn =>
      rw [add_find?]
      split
      · next hid =>
        rw [compileNode, h i (by simp) n hn hid]
        rfl
      · rfl
    · rfl

theorem id_ne_of_not_mem (distinct : (nodes.map Node.id).Nodup) (hn : nodes[i]? = some n)
    (hi : i ∉ post) : ∀ j ∈ post, ∀ m, nodes[j]? = some m → m.id ≠ n.id := by
  intro j hj m hm hid
  have hmn := Order.eq_of_id distinct (List.mem_of_getElem? hm) (List.mem_of_getElem? hn) hid
  exact hi (Order.place_inj distinct (hmn ▸ hm) hn ▸ hj)

theorem compileAll_find?_of_not_mem (distinct : (nodes.map Node.id).Nodup) (hn : nodes[i]? = some n)
    (hi : i ∉ post) (p : Pass) :
    (post.foldl (compileAt registry nodes edges) p).outlets.find? n.id =
      p.outlets.find? n.id :=
  foldl_find? (fun j hj m hm hid => absurd hid (id_ne_of_not_mem distinct hn hi j hj m hm)) p

/-- What is found of a node is what came of it at its place. -/
theorem compileAll_find? (distinct : (nodes.map Node.id).Nodup) (hn : nodes[i]? = some n)
    (hnodup : (pre ++ i :: post).Nodup) :
    (compileAll registry nodes edges (pre ++ i :: post)).outlets.find? n.id =
      (compileNode registry edges (compileAll registry nodes edges pre).outlets n
        (copyAt nodes i n.id)).outlets? := by
  have hi : i ∉ pre ∧ i ∉ post := by
    have := List.nodup_middle.1 hnodup
    simpa using (List.nodup_cons.1 this).1
  have hnone : (compileAll registry nodes edges pre).outlets.find? n.id = none :=
    compileAll_find?_of_not_mem distinct hn hi.1 _
  rw [compileAll_append, List.foldl_cons, compileAll_find?_of_not_mem distinct hn hi.2, compileAt,
    hn, add_find?, if_pos rfl, hnone, Option.or_none]

theorem exists_turn (registry : Registry) (hi : i ∈ Order.topological nodes edges) :
    ∃ n seen, Turn registry nodes edges i n seen := by
  obtain ⟨pre, post, ho⟩ := List.append_of_mem hi
  have hlt := (((Order.topological_sorted nodes edges).mem_iff i).1 hi).1
  exact ⟨_, _, List.getElem?_eq_getElem hlt, pre, post, ho, rfl⟩

theorem Turn.sourceOf_expr (h : Turn registry nodes edges i n seen)
    (sound : ∀ t ∈ registry.types, t.Sound) {e : Edge} {s : Signal}
    (hs : Resolve.sourceOf seen e = some s) : ∃ x, s = .expr x := by
  obtain ⟨-, pre, post, ho, rfl⟩ := h
  have hnodup := (Order.topological_sorted nodes edges).nodup
  rw [ho] at hnodup
  obtain ⟨known, hb⟩ : ∃ known,
      Built registry nodes pre known (compileAll registry nodes edges pre) :=
    compileAll_built edges sound (List.nodup_append.1 hnodup).1
  obtain ⟨x, -, hx⟩ := Resolve.sourceOf_within hb.within hs
  exact ⟨x, hx⟩

theorem Turn.compiled (h : Turn registry nodes edges i n seen)
    (sound : ∀ t ∈ registry.types, t.Sound) {t : NodeType} (ht : registry.find? n.type = some t) :
    ∃ given, compileNode registry edges seen n (copyAt nodes i n.id) = .compiled given ∧
      ∀ name ∈ t.info.outlets, ∃ x, given.find? name = some (.expr x) := by
  obtain ⟨hn, pre, post, ho, rfl⟩ := h
  have hnodup := (Order.topological_sorted nodes edges).nodup
  rw [ho, List.nodup_middle, List.nodup_cons, List.mem_append, not_or] at hnodup
  obtain ⟨known, hb⟩ : ∃ known,
      Built registry nodes pre known (compileAll registry nodes edges pre) :=
    compileAll_built edges sound (List.nodup_append.1 hnodup.2).1
  obtain ⟨known', -, -, hres⟩ :=
    compileNode_spec edges sound hb.grown hb.within n _ (hb.free hnodup.1.1 hn)
  rw [ht] at hres
  obtain ⟨given, hgiven, hgives⟩ := hres
  refine ⟨given, hgiven, fun name hname => ?_⟩
  obtain ⟨s, hs⟩ := hgives.some name hname
  obtain ⟨x, -, rfl⟩ := hgives.expr name s hs
  exact ⟨x, hs⟩

/-- What came of a node at its turn is what is found of it in the end. -/
theorem Turn.found (h : Turn registry nodes edges i n seen) (distinct : (nodes.map Node.id).Nodup) :
    (compileAll registry nodes edges (Order.topological nodes edges)).outlets.find? n.id =
      (compileNode registry edges seen n (copyAt nodes i n.id)).outlets? := by
  obtain ⟨hn, pre, post, ho, rfl⟩ := h
  have hnodup := (Order.topological_sorted nodes edges).nodup
  rw [ho] at hnodup ⊢
  exact compileAll_find? distinct hn hnodup

/-- The last turn of an id: under it only nodes of an unknown type stand behind. -/
structure LastTurn (registry : Registry) (nodes : List Node) (edges : List Edge) (i : Nat)
    (n : Node) (seen : OutletMap) : Prop where
  node : nodes[i]? = some n
  place : ∃ pre post, Order.topological nodes edges = pre ++ i :: post ∧
    seen = (compileAll registry nodes edges pre).outlets ∧
    ∀ j ∈ post, ∀ m, nodes[j]? = some m → m.id = n.id → registry.find? m.type = none

theorem LastTurn.turn (h : LastTurn registry nodes edges i n seen) :
    Turn registry nodes edges i n seen := by
  obtain ⟨hn, pre, post, ho, hseen, -⟩ := h
  exact ⟨hn, pre, post, ho, hseen⟩

/-- With distinct ids every turn is the last one. -/
theorem Turn.last (h : Turn registry nodes edges i n seen)
    (distinct : (nodes.map Node.id).Nodup) : LastTurn registry nodes edges i n seen := by
  obtain ⟨hn, pre, post, ho, hseen⟩ := h
  have hnodup := (Order.topological_sorted nodes edges).nodup
  rw [ho, List.nodup_middle, List.nodup_cons, List.mem_append, not_or] at hnodup
  exact ⟨hn, pre, post, ho, hseen, fun j hj m hm hid =>
    absurd hid (id_ne_of_not_mem distinct hn hnodup.1.2 j hj m hm)⟩

/-- What a node gives at the last turn of its id is found in the end. -/
theorem LastTurn.found (h : LastTurn registry nodes edges i n seen) {given : Outputs}
    (hgiven : compileNode registry edges seen n (copyAt nodes i n.id) = .compiled given) :
    (compileAll registry nodes edges (Order.topological nodes edges)).outlets.find? n.id =
      some given := by
  obtain ⟨hn, pre, post, ho, rfl, hlast⟩ := h
  rw [ho, compileAll_append, List.foldl_cons, foldl_find? hlast, compileAt, hn]
  simp only [add_find?, if_true, hgiven]
  rfl

/-- Where an edge comes from had its turn before, and what came of it then is what is seen now
and what is found in the end. -/
theorem Turn.source (h : Turn registry nodes edges i n seen) (distinct : (nodes.map Node.id).Nodup)
    {e : Edge} (he : e ∈ edges) (hn : e.target = n.id) {m : Node} (hm : m ∈ nodes)
    (hs : e.source = m.id) :
    ∃ j before, Turn registry nodes edges j m before ∧
      seen.find? m.id =
        (compileNode registry edges before m (copyAt nodes j m.id)).outlets? ∧
      (compileAll registry nodes edges (Order.topological nodes edges)).outlets.find? m.id =
        (compileNode registry edges before m (copyAt nodes j m.id)).outlets? := by
  obtain ⟨hi, pre, post, ho, rfl⟩ := h
  obtain ⟨j, hj⟩ := List.mem_iff_getElem?.1 hm
  have hsorted := Order.topological_sorted nodes edges
  have hnodup := hsorted.nodup
  rw [ho] at hnodup
  have hjpre : j ∈ pre :=
    hsorted.forward pre post i ho j ((Order.mem_links_iff distinct hj hi).2 ⟨e, he, hs, hn⟩)
  -- the source stands before `i`, and no place after it has its id
  obtain ⟨a, b, rfl⟩ := List.append_of_mem hjpre
  have hwhole : Order.topological nodes edges = a ++ j :: (b ++ i :: post) := by
    rw [ho, List.append_assoc, List.cons_append]
  have hturn : Turn registry nodes edges j m (compileAll registry nodes edges a).outlets :=
    ⟨hj, a, _, hwhole, rfl⟩
  refine ⟨j, _, hturn, ?_, hturn.found distinct⟩
  exact compileAll_find? distinct hj (List.nodup_append.1 hnodup).1

end Compile

end Patchbay
