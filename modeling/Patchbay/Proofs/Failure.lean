import Mathlib
import Patchbay.NodeType.Builtin
import Patchbay.Proofs.FirstEdge
import Patchbay.Proofs.Turn

/-!
# Failing nodes

A node fails if its type is unknown, if compiling it is refused or if it gives less than its type
declares. Nothing flows out of it then, so that the rest of the patch is compiled as if the node
and all edges that touch it were not there. In the target one failure looks like another.
-/

set_option autoImplicit false

namespace Patchbay

namespace Compile

variable {registry : Registry} {nodes : List Node} {edges : List Edge} {x y : Node} {i : Nat}
  {seen : OutletMap}

/-- What a node type gives for a node, before its outlets are checked. -/
def attempt (t : NodeType) (edges : List Edge) (seen : OutletMap) (n : Node) (copy : Nat) :
    Except CompileError Outputs :=
  Build.within (.node n.id copy) do
    let inputs ← Resolve.inputs n t.info edges seen
    (t.compile inputs n.id).run

/-- The three ways in which a node fails. -/
inductive Fails (registry : Registry) (edges : List Edge) (seen : OutletMap) (n : Node)
    (copy : Nat) : Prop
  | unknown (none : registry.find? n.type = none)
  | refused (t : NodeType) (known : registry.find? n.type = some t) (e : CompileError)
      (error : attempt t edges seen n copy = .error e)
  | incomplete (t : NodeType) (known : registry.find? n.type = some t) (given : Outputs)
      (ok : attempt t edges seen n copy = .ok given) (outlet : String)
      (declared : outlet ∈ t.info.outlets) (missing : given.find? outlet = none)

theorem checkOutlets_error {info : NodeInfo} {given : Outputs} {outlet : String}
    (declared : outlet ∈ info.outlets) (missing : given.find? outlet = none) :
    ∃ e, checkOutlets info given = .error e := by
  rw [checkOutlets]
  cases hf : info.outlets.find? fun outlet => (given.find? outlet).isNone with
  | none =>
    have := List.find?_eq_none.1 hf outlet declared
    simp [missing] at this
  | some outlet' => exact ⟨_, rfl⟩

theorem compileNode_failed {n : Node} {copy : Nat} {t : NodeType}
    (known : registry.find? n.type = some t) {e : CompileError}
    (h : (attempt t edges seen n copy).bind (checkOutlets t.info) = .error e) :
    compileNode registry edges seen n copy = .failed e := by
  rw [attempt] at h
  rw [compileNode, known]
  simp only [h]

/-- A node that fails has no outlets, whether it is found or not. -/
theorem Fails.outlets {n : Node} {copy : Nat} (h : Fails registry edges seen n copy) :
    (compileNode registry edges seen n copy).outlets? = none ∨
      (compileNode registry edges seen n copy).outlets? = some .empty := by
  cases h with
  | unknown hnone =>
    left
    rw [compileNode, hnone]
    rfl
  | refused t ht e herror =>
    right
    rw [compileNode_failed ht (by rw [herror]; rfl)]
    rfl
  | incomplete t ht given hok outlet hdeclared hmissing =>
    right
    obtain ⟨e, he⟩ := checkOutlets_error hdeclared hmissing
    rw [compileNode_failed ht (by rw [hok]; exact he)]
    rfl

theorem Turn.sorted (h : Turn registry nodes edges i x seen) :
    x ∈ Order.sortedNodes nodes edges := by
  obtain ⟨hi, pre, post, ho, -⟩ := h
  exact (Order.mem_sortedNodes x).2 ⟨i, by simp [ho], hi⟩

/-- Nothing flows out of a node that failed at its turn. -/
theorem Turn.sourceOf_failed (h : Turn registry nodes edges i x seen)
    (distinct : (nodes.map Node.id).Nodup)
    (hfails : Fails registry edges seen x (copyAt nodes i x.id)) {e : Edge}
    (he : e.source = x.id) :
    Resolve.sourceOf (compileAll registry nodes edges (Order.topological nodes edges)).outlets e =
      none := by
  rw [Resolve.sourceOf, he, h.found distinct]
  rcases hfails.outlets with hnone | hempty
  · rw [hnone, Option.bind_none]
  · rw [hempty, Option.bind_some, Table.find?_empty]

/-- The patch without a node and the edges that touch it. -/
def nodesWithout (nodes : List Node) (id : String) : List Node := nodes.filter (·.id ≠ id)

def edgesWithout (edges : List Edge) (id : String) : List Edge := edges.filter (!·.touches id)

theorem mem_nodesWithout {n : Node} {id : String} :
    n ∈ nodesWithout nodes id ↔ n ∈ nodes ∧ n.id ≠ id := by
  simp [nodesWithout]

theorem mem_edgesWithout {e : Edge} {id : String} :
    e ∈ edgesWithout edges id ↔ e ∈ edges ∧ e.source ≠ id ∧ e.target ≠ id := by
  simp [edgesWithout, Edge.touches]

/-- The same nodes are sorted without a node that is itself sorted. -/
theorem sortedNodes_without (distinct : (nodes.map Node.id).Nodup)
    (hx : x ∈ Order.sortedNodes nodes edges) {n : Node} (hn : n.id ≠ x.id) :
    n ∈ Order.sortedNodes nodes edges ↔
      n ∈ Order.sortedNodes (nodesWithout nodes x.id) (edgesWithout edges x.id) := by
  have harranged := Order.sortedNodes_arranged edges distinct
  have harranged' := Order.sortedNodes_arranged (edgesWithout edges x.id)
    (distinct.sublist ((List.filter_sublist (p := (·.id ≠ x.id))).map _))
  have hxnodes : x ∈ nodes := ((harranged.mem_iff x).1 hx).1
  have hlead (n : Node) (hn : n ∈ nodesWithout nodes x.id) (m : Node) (hm : m ∈ nodes)
      (h : Order.Leads edges m n) : m ∈ Order.sortedNodes nodes edges ∨
        m ∈ nodesWithout nodes x.id ∧ Order.Leads (edgesWithout edges x.id) m n := by
    by_cases hid : m.id = x.id
    · left
      rw [Order.eq_of_id distinct hm hxnodes hid]
      exact hx
    · right
      obtain ⟨e, he, hs, ht⟩ := h
      have hkept : e ∈ edgesWithout edges x.id :=
        mem_edgesWithout.2 ⟨he, hs ▸ hid, ht ▸ (mem_nodesWithout.1 hn).2⟩
      exact ⟨mem_nodesWithout.2 ⟨hm, hid⟩, e, hkept, hs, ht⟩
  have hpart (hmem : n ∈ nodesWithout nodes x.id) :=
    harranged.mem_iff_part harranged' (List.filter_subset_self _) (List.filter_subset_self _)
      hlead hmem
  constructor
  · intro hsorted
    exact (hpart (mem_nodesWithout.2 ⟨((harranged.mem_iff n).1 hsorted).1, hn⟩)).1 hsorted
  · intro hsorted
    exact (hpart ((harranged'.mem_iff n).1 hsorted).1).2 hsorted

/-- With one edge into each inlet, what comes from a node without outlets may as well not come at
all. -/
theorem connection?_without (single : (edges.map Edge.inlet).Nodup) {compiled compiled' : OutletMap}
    {id : String} (hid : ∀ e : Edge, e.source = id → Resolve.sourceOf compiled e = none) {n : Node}
    (hn : n.id ≠ id)
    (hsame : ∀ e ∈ edges, e.target = n.id → e.source ≠ id →
      compiled.find? e.source = compiled'.find? e.source) (inlet : Inlet) :
    Resolve.connection? edges compiled n inlet =
      Resolve.connection? (edgesWithout edges id) compiled' n inlet := by
  have single' : ((edgesWithout edges id).map Edge.inlet).Nodup :=
    single.sublist (List.filter_sublist.map _)
  rw [Resolve.connection?, Resolve.connection?]
  cases hf : edges.find? (·.feeds n.id inlet.name) with
  | none =>
    have hf' : (edgesWithout edges id).find? (·.feeds n.id inlet.name) = none :=
      List.find?_eq_none.2 fun e he => List.find?_eq_none.1 hf e (mem_edgesWithout.1 he).1
    rw [hf']
    rfl
  | some e =>
    have he := List.mem_of_find?_eq_some hf
    have hfeeds := List.find?_some hf
    have hinlet := (e.feeds_iff n.id inlet.name).1 hfeeds
    have htarget : e.target = n.id := congrArg Prod.fst hinlet
    by_cases hs : e.source = id
    · have hf' : (edgesWithout edges id).find? (·.feeds n.id inlet.name) = none := by
        refine List.find?_eq_none.2 fun e' he' hfeeds => ?_
        obtain ⟨hmem, hsource, -⟩ := mem_edgesWithout.1 he'
        have hinlet' := (e'.feeds_iff n.id inlet.name).1 hfeeds
        have heq := List.inj_on_of_nodup_map single hmem he (hinlet'.trans hinlet.symm)
        exact hsource (heq ▸ hs)
      rw [hf', Option.bind_eq_bind, Option.bind_some, hid e hs]
      rfl
    · have hmem : e ∈ edgesWithout edges id := mem_edgesWithout.2 ⟨he, hs, htarget ▸ hn⟩
      have hf' : (edgesWithout edges id).find? (·.feeds n.id inlet.name) = some e :=
        find?_of_distinct single' (fun e' => by rw [Edge.feeds_iff, hinlet]) hmem
      rw [hf', Option.bind_eq_bind, Option.bind_some, Option.bind_eq_bind, Option.bind_some,
        Resolve.sourceOf, Resolve.sourceOf, hsame e he htarget hs]

theorem findSink?_without (distinct : (nodes.map Node.id).Nodup)
    (hx : findSink? registry nodes ≠ some x) (hmem : x ∈ nodes) :
    findSink? registry (nodesWithout nodes x.id) = findSink? registry nodes := by
  cases hs : findSink? registry nodes with
  | none =>
    have hnil : nodes.filter (isSink registry) = [] := by
      cases hf : nodes.filter (isSink registry) with
      | nil => rfl
      | cons n ns => simp [findSink?, hf, smallest?] at hs
    have hnil' : (nodesWithout nodes x.id).filter (isSink registry) = [] :=
      List.eq_nil_of_subset_nil (hnil ▸ (List.filter_sublist.filter _).subset)
    rw [findSink?, hnil']
    rfl
  | some sink =>
    have hsink := List.mem_filter.1 (smallest?_spec hs).1
    have hne : sink.id ≠ x.id := by
      intro hid
      exact hx (Order.eq_of_id distinct hsink.1 hmem hid ▸ hs)
    exact findSink?_part distinct List.filter_sublist hs (mem_nodesWithout.2 ⟨hsink.1, hne⟩)

/-- The target of a patch in which a node other than the sink fails is the target without it. -/
theorem target_without (distinct : (nodes.map Node.id).Nodup)
    (single : (edges.map Edge.inlet).Nodup) (hturn : Turn registry nodes edges i x seen)
    (hfails : Fails registry edges seen x (copyAt nodes i x.id))
    (hsink : findSink? registry nodes ≠ some x) :
    (patch registry .bare (nodesWithout nodes x.id) (edgesWithout edges x.id)).target =
      (patch registry .bare nodes edges).target := by
  have hx := hturn.sorted
  have harranged := Order.sortedNodes_arranged edges distinct
  have hmem : x ∈ nodes := ((harranged.mem_iff x).1 hx).1
  have distinct' : ((nodesWithout nodes x.id).map Node.id).Nodup :=
    distinct.sublist (List.filter_sublist.map _)
  rw [patch, patch, findSink?_without distinct hsink hmem]
  cases hs : findSink? registry nodes with
  | none => rfl
  | some sink =>
    have hne : sink.id ≠ x.id := by
      intro hid
      have hsinkmem := (List.mem_filter.1 (smallest?_spec hs).1).1
      exact hsink (Order.eq_of_id distinct hsinkmem hmem hid ▸ hs)
    have hfind := settled_agree_on (· ≠ x.id) (clear_of_arranged distinct harranged)
      (compileAll_settled registry edges distinct) (compileAll_settled registry _ distinct')
      (fun n hn => sortedNodes_without distinct hx hn)
      (fun n _ hn hsources => connection?_without single
        (fun e he => hturn.sourceOf_failed distinct hfails he) hn hsources) hne
    show some (channels _ sink.id) = some (channels _ sink.id)
    rw [channels_congr hfind]

/-- Another node in the place of one of an id. -/
def replaceNode (nodes : List Node) (id : String) (y : Node) : List Node :=
  nodes.map fun n => if n.id = id then y else n

theorem nodesWithout_replaceNode {id : String} (hy : y.id = id) :
    nodesWithout (replaceNode nodes id y) id = nodesWithout nodes id := by
  induction nodes with
  | nil => rfl
  | cons n nodes ih =>
    simp only [nodesWithout, replaceNode] at ih ⊢
    rw [List.map_cons, List.filter_cons, List.filter_cons, ih]
    by_cases hid : n.id = id <;> simp [hid, hy]

theorem map_id_replaceNode {id : String} (hy : y.id = id) :
    (replaceNode nodes id y).map Node.id = nodes.map Node.id := by
  rw [replaceNode, List.map_map]
  refine List.map_congr_left fun n _ => ?_
  by_cases hid : n.id = id <;> simp [hid, hy]

/-- A node that fails can be deleted with all edges that touch it, and the target stays as it was.
Nor does it change if the node fails in another way. -/
theorem patch_without (registry : Registry) (nodes : List Node) (edges : List Edge)
    (distinct : (nodes.map Node.id).Nodup) (single : (edges.map Edge.inlet).Nodup) (x : Node)
    (i : Nat) (seen : OutletMap) (hturn : Turn registry nodes edges i x seen)
    (hfails : Fails registry edges seen x (copyAt nodes i x.id))
    (hsink : findSink? registry nodes ≠ some x) :
    (patch registry .bare (nodesWithout nodes x.id) (edgesWithout edges x.id)).target =
        (patch registry .bare nodes edges).target ∧
      ∀ y j seen', y.id = x.id →
        Turn registry (replaceNode nodes x.id y) edges j y seen' →
        Fails registry edges seen' y (copyAt (replaceNode nodes x.id y) j y.id) →
        findSink? registry (replaceNode nodes x.id y) ≠ some y →
          (patch registry .bare (replaceNode nodes x.id y) edges).target =
            (patch registry .bare nodes edges).target := by
  have hwithout := target_without distinct single hturn hfails hsink
  refine ⟨hwithout, fun y j seen' hy hturn' hfails' hsink' => ?_⟩
  have distinct' : ((replaceNode nodes x.id y).map Node.id).Nodup := by
    rw [map_id_replaceNode hy]
    exact distinct
  rw [← target_without distinct' single hturn' hfails' hsink', hy, nodesWithout_replaceNode hy,
    hwithout]

/-- A node type that gives none of the outlets it declares. -/
def forgetful : NodeType where
  info := ⟨"forgetful", "forgetful", "gives nothing", .source, [], ["signal"], []⟩
  compile := fun _ _ => return .empty

/-- A node type that always refuses. -/
def exploding : NodeType where
  info := ⟨"exploding", "exploding", "refuses", .source, [], ["signal"], []⟩
  compile := fun _ _ => throw (.invalidParam "fuse" "lit")

/-- A mixer falls back for the side that comes from a node of no known type, from one that gives
nothing or from one that refuses, just as if there were no such node. -/
theorem patch_without_side :
    let registry := (Registry.builtin.register forgetful).register exploding
    let side (type : String) : Node := .new "x" type
    let nodes (type : String) : List Node :=
      [.new "n" "number", side type, .new "m" "mix", .new "out" "output"]
    let edges : List Edge := [⟨"nx", "n", "signal", "x", "input"⟩,
      ⟨"nm", "n", "signal", "m", "a"⟩, ⟨"xm", "x", "signal", "m", "b"⟩,
      ⟨"heard", "m", "signal", "out", "left"⟩]
    let seen := (compileAll registry (nodes "mystery") edges [0]).outlets
    (((nodes "mystery").map Node.id).Nodup ∧ (edges.map Edge.inlet).Nodup ∧
      Turn registry (nodes "mystery") edges 1 (side "mystery") seen ∧
      Fails registry edges seen (side "mystery") 0 ∧
      findSink? registry (nodes "mystery") ≠ some (side "mystery")) ∧
    (patch registry .bare (nodesWithout (nodes "mystery") "x") (edgesWithout edges "x")).target =
        (patch registry .bare (nodes "mystery") edges).target ∧
      (patch registry .bare (nodes "forgetful") edges).target =
        (patch registry .bare (nodes "mystery") edges).target ∧
      (patch registry .bare (nodes "exploding") edges).target =
        (patch registry .bare (nodes "mystery") edges).target := by
  intro registry side nodes edges seen
  have distinct : ((nodes "mystery").map Node.id).Nodup := by decide
  have single : (edges.map Edge.inlet).Nodup := by decide
  have hturn (type : String) (h : Order.topological (nodes type) edges = [0, 1, 2, 3]) :
      Turn registry (nodes type) edges 1 (side type)
        (compileAll registry (nodes type) edges [0]).outlets :=
    ⟨rfl, [0], [2, 3], h, rfl⟩
  have hsink (type : String) (h : isSink registry (side type) = false) :
      findSink? registry (nodes type) ≠ some (side type) := by
    intro hs
    have := (List.mem_filter.1 (smallest?_spec hs).1).2
    rw [h] at this
    cases this
  have hunknown : Fails registry edges seen (side "mystery") 0 := .unknown (by rfl)
  obtain ⟨hwithout, hother⟩ := patch_without registry (nodes "mystery") edges distinct single
    (side "mystery") 1 seen (hturn "mystery" (by decide)) hunknown (hsink "mystery" (by rfl))
  have hforgetful := hother (side "forgetful") 1 _ rfl (hturn "forgetful" (by decide))
    (.incomplete forgetful (by rfl) .empty (by rfl) "signal" (by decide) (by rfl))
    (hsink "forgetful" (by rfl))
  have hexploding := hother (side "exploding") 1 _ rfl (hturn "exploding" (by decide))
    (.refused exploding (by rfl) (.invalidParam "fuse" "lit") (by rfl))
    (hsink "exploding" (by rfl))
  exact ⟨⟨distinct, single, hturn "mystery" (by decide), hunknown, hsink "mystery" (by rfl)⟩,
    hwithout, hforgetful, hexploding⟩

end Compile

end Patchbay
