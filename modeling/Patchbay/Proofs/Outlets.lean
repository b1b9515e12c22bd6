import Mathlib
import Patchbay.Compile.Target
import Patchbay.Proofs.Arrangement
import Patchbay.Proofs.Table

/-!
# Outlets as a solution

A node is compiled from the outlets of the nodes before it, but what it gives is the same as if it
had been compiled from the outlets of all of them. So the outlets of a patch solve one equation
for every sorted node, and an order in which edges lead forwards leaves only one solution.
-/

set_option autoImplicit false

namespace Patchbay

namespace Resolve

variable {edges edges' : List Edge} {compiled compiled' : OutletMap} {node : Node}

theorem inletSignals_congr
    (h : ∀ inlet, connection? edges compiled node inlet = connection? edges' compiled' node inlet)
    (inlets : List Inlet) :
    inletSignals edges compiled node inlets = inletSignals edges' compiled' node inlets := by
  induction inlets with
  | nil => rfl
  | cons inlet inlets ih => rw [inletSignals, inletSignals, inletSignal, inletSignal, h, ih]

theorem connection?_congr
    (h : ∀ e ∈ edges, e.target = node.id → compiled.find? e.source = compiled'.find? e.source)
    (inlet : Inlet) :
    connection? edges compiled node inlet = connection? edges compiled' node inlet := by
  rw [connection?, connection?]
  cases hf : edges.find? (·.feeds node.id inlet.name) with
  | none => rfl
  | some e =>
    have hfeeds := List.find?_some hf
    simp only [Edge.feeds, Bool.and_eq_true, decide_eq_true_eq] at hfeeds
    simp only [Option.bind_eq_bind, Option.bind_some, sourceOf,
      h e (List.mem_of_find?_eq_some hf) hfeeds.1]

theorem connection?_edges {inlet : Inlet}
    (h : edges.find? (·.feeds node.id inlet.name) = edges'.find? (·.feeds node.id inlet.name)) :
    connection? edges compiled node inlet = connection? edges' compiled node inlet := by
  rw [connection?, connection?, h]

end Resolve

namespace Compile

variable {registry : Registry} {edges : List Edge} {nodes pre post ns ns' : List Node}

namespace Outcome

/-- What is found of a node afterwards. -/
def outlets? : Outcome → Option Outputs
  | skipped => none
  | failed _ => some .empty
  | compiled o => some o

def isCompiled : Outcome → Bool
  | compiled _ => true
  | _ => false

def isSkipped : Outcome → Bool
  | skipped => true
  | _ => false

def isFailed : Outcome → Bool
  | failed _ => true
  | _ => false

end Outcome

/-- The statistics of a patch before instrumentation. -/
def tally (dropped : Nat) (os : List Outcome) : CompileStats :=
  ⟨os.countP (·.isCompiled), os.countP (·.isSkipped), os.countP (·.isFailed), dropped, 0, 0⟩

theorem tally_perm {dropped : Nat} {os os' : List Outcome} (h : os.Perm os') :
    tally dropped os = tally dropped os' := by
  simp only [tally, h.countP_eq]

theorem compileNode_congr {edges' : List Edge} {compiled compiled' : OutletMap} {node : Node}
    (h : ∀ inlet, Resolve.connection? edges compiled node inlet =
      Resolve.connection? edges' compiled' node inlet) (copy : Nat) :
    compileNode registry edges compiled node copy =
      compileNode registry edges' compiled' node copy := by
  simp only [compileNode, Resolve.inputs, Resolve.inletSignals_congr h]

/-- No edge into a node comes from it or from behind it, and no id occurs twice. -/
def Clear (edges : List Edge) (ns : List Node) : Prop :=
  ∀ pre post n, ns = pre ++ n :: post → n.id ∉ pre.map Node.id ∧
    ∀ e ∈ edges, e.target = n.id → e.source ∉ (n :: post).map Node.id

theorem clear_of_arranged (distinct : (nodes.map Node.id).Nodup)
    (h : Order.Arranged nodes edges ns) : Clear edges ns := by
  intro pre post n hns
  have hmem (m : Node) (hm : m ∈ ns) : m ∈ nodes := ((h.mem_iff m).1 hm).1
  have hnodup := h.nodup
  rw [hns, List.nodup_append] at hnodup
  refine ⟨fun hid => ?_, fun e he ht hs => ?_⟩
  · obtain ⟨m, hm, heq⟩ := List.mem_map.1 hid
    have := Order.eq_of_id distinct (hmem m (by simp [hns, hm])) (hmem n (by simp [hns])) heq
    exact hnodup.2.2 m hm n (by simp) this
  · obtain ⟨m, hm, heq⟩ := List.mem_map.1 hs
    have hpre := h.forward pre post n hns m (hmem m (by rw [hns]; simp at hm ⊢; tauto))
      ⟨e, he, heq.symm, ht⟩
    exact hnodup.2.2 m hpre m hm rfl

theorem add_find? (p : Pass) (n : Node) (o : Outcome) (id : String) :
    (p.add n o).outlets.find? id =
      if n.id = id then o.outlets?.or (p.outlets.find? id) else p.outlets.find? id := by
  cases o with
  | skipped => simp [Pass.add, Outcome.outlets?]
  | failed e =>
    simp only [Pass.add, Outcome.outlets?, Table.find?_insert]
    rfl
  | compiled o =>
    simp only [Pass.add, Outcome.outlets?, Table.find?_insert]
    rfl

theorem add_stats (p : Pass) (n : Node) {o : Outcome} {dropped : Nat} {os : List Outcome}
    (h : p.stats = tally dropped os) : (p.add n o).stats = tally dropped (os ++ [o]) := by
  cases o <;> simp [Pass.add, h, tally, Outcome.isCompiled, Outcome.isSkipped, Outcome.isFailed]

/-- Each of some nodes has left behind what it gives in sight of all of them. -/
structure Settled (registry : Registry) (edges : List Edge) (ns : List Node) (dropped : Nat)
    (p : Pass) : Prop where
  here : ∀ n ∈ ns, p.outlets.find? n.id = (compileNode registry edges p.outlets n 0).outlets?
  nowhere : ∀ id, id ∉ ns.map Node.id → p.outlets.find? id = none
  stats : p.stats = tally dropped (ns.map fun n => compileNode registry edges p.outlets n 0)

theorem settled_snoc {dropped : Nat} {p : Pass} {n : Node}
    (h : Settled registry edges pre dropped p) (hc : Clear edges (pre ++ n :: post)) :
    Settled registry edges (pre ++ [n]) dropped
      (p.add n (compileNode registry edges p.outlets n 0)) := by
  have hnew := (hc pre post n rfl).1
  have hfind (id : String) : (p.add n (compileNode registry edges p.outlets n 0)).outlets.find? id =
      if n.id = id then (compileNode registry edges p.outlets n 0).outlets?
      else p.outlets.find? id := by
    rw [add_find?]
    split
    · next hid => rw [h.nowhere id (hid ▸ hnew), Option.or_none]
    · rfl
  have hsame (m : Node) (hm : m ∈ pre ++ [n]) :
      compileNode registry edges (p.add n (compileNode registry edges p.outlets n 0)).outlets m 0 =
        compileNode registry edges p.outlets m 0 := by
    refine compileNode_congr (Resolve.connection?_congr fun e he ht => ?_) 0
    have hne : n.id ≠ e.source := by
      rcases List.mem_append.1 hm with hm | hm
      · obtain ⟨a, b, rfl⟩ := List.append_of_mem hm
        have hout := (hc a (b ++ n :: post) m (by simp)).2 e he ht
        exact fun hid => hout (by simp [hid])
      · obtain rfl := List.mem_singleton.1 hm
        have hout := (hc pre post m rfl).2 e he ht
        exact fun hid => hout (by simp [hid])
    rw [hfind, if_neg hne]
  refine ⟨fun m hm => ?_, fun id hid => ?_, ?_⟩
  · rw [hsame m hm, hfind]
    rcases List.mem_append.1 hm with hm | hm
    · have hne : n.id ≠ m.id := fun hid => hnew (hid ▸ List.mem_map_of_mem hm)
      rw [if_neg hne]
      exact h.here m hm
    · rw [List.mem_singleton.1 hm, if_pos rfl]
  · rw [List.map_append, List.mem_append, not_or] at hid
    rw [hfind, if_neg (by simpa [eq_comm] using hid.2)]
    exact h.nowhere id hid.1
  · rw [add_stats p n h.stats, List.map_append]
    congr 2
    · exact List.map_congr_left fun m hm => (hsame m (by simp [hm])).symm
    · simp only [List.map_singleton, hsame n (by simp)]

theorem settled_foldl {dropped : Nat} {p : Pass} (h : Settled registry edges pre dropped p)
    (hc : Clear edges (pre ++ ns)) :
    Settled registry edges (pre ++ ns) dropped
      (ns.foldl (fun p n => p.add n (compileNode registry edges p.outlets n 0)) p) := by
  induction ns generalizing pre p with
  | nil => simpa using h
  | cons n ns ih =>
    have := ih (settled_snoc h hc) (by simpa using hc)
    simpa using this

theorem copyAt_eq_zero (distinct : (nodes.map Node.id).Nodup) {i : Nat} {n : Node}
    (h : nodes[i]? = some n) : copyAt nodes i n.id = 0 := by
  obtain ⟨hi, rfl⟩ := List.getElem?_eq_some_iff.1 h
  rw [copyAt, List.countP_eq_zero]
  intro m hm
  obtain ⟨j, hj, rfl⟩ := List.mem_take_iff_getElem.1 hm
  have hne := List.pairwise_iff_getElem.1 (List.pairwise_map.1 distinct)
  simpa using hne j i (by omega) hi (by omega)

/-- Distinct ids leave a single copy of each, so that the places can be forgotten. -/
theorem compileAll_eq (distinct : (nodes.map Node.id).Nodup) :
    compileAll registry nodes edges (Order.topological nodes edges) =
      (Order.sortedNodes nodes edges).foldl
        (fun p n => p.add n (compileNode registry edges p.outlets n 0))
        ⟨.empty, { CompileStats.zero with
          dropped := nodes.length - (Order.topological nodes edges).length }⟩ := by
  rw [compileAll, Order.sortedNodes, List.foldl_filterMap]
  refine List.foldl_ext _ _ _ fun p i _ => ?_
  rw [compileAt]
  cases h : nodes[i]? with
  | none => rfl
  | some n => simp only [copyAt_eq_zero distinct h]

theorem compileAll_settled (registry : Registry) (edges : List Edge)
    (distinct : (nodes.map Node.id).Nodup) :
    Settled registry edges (Order.sortedNodes nodes edges)
      (nodes.length - (Order.topological nodes edges).length)
      (compileAll registry nodes edges (Order.topological nodes edges)) := by
  rw [compileAll_eq distinct]
  have hc := clear_of_arranged distinct (Order.sortedNodes_arranged edges distinct)
  have hstart : Settled registry edges [] (nodes.length - (Order.topological nodes edges).length)
      ⟨.empty, { CompileStats.zero with
        dropped := nodes.length - (Order.topological nodes edges).length }⟩ :=
    ⟨by simp, fun _ _ => rfl, rfl⟩
  exact settled_foldl hstart hc

/-- Two solutions agree on a part of the patch, if the same of its nodes are sorted and each of
them compiles alike once what it gets from the part does. -/
theorem settled_agree_on {edges' : List Edge} {dropped dropped' : Nat} {p p' : Pass}
    (part : String → Prop) (hc : Clear edges ns) (h : Settled registry edges ns dropped p)
    (h' : Settled registry edges' ns' dropped' p')
    (hmem : ∀ n, part n.id → (n ∈ ns ↔ n ∈ ns'))
    (hconn : ∀ n ∈ ns, part n.id → (∀ e ∈ edges, e.target = n.id → part e.source →
        p.outlets.find? e.source = p'.outlets.find? e.source) →
      ∀ inlet, Resolve.connection? edges p.outlets n inlet =
        Resolve.connection? edges' p'.outlets n inlet)
    {id : String} (hid : part id) : p.outlets.find? id = p'.outlets.find? id := by
  have hnot (id : String) (hid : part id) (hout : id ∉ ns.map Node.id) :
      p.outlets.find? id = p'.outlets.find? id := by
    have hout' : id ∉ ns'.map Node.id := by
      intro hin
      obtain ⟨n, hn, rfl⟩ := List.mem_map.1 hin
      exact hout (List.mem_map_of_mem ((hmem n hid).2 hn))
    rw [h.nowhere id hout, h'.nowhere id hout']
  have hsorted : ∀ n ∈ ns, part n.id → p.outlets.find? n.id = p'.outlets.find? n.id := by
    -- along the order: whatever a connection of `n` comes from stands before `n` or nowhere
    refine Order.forall_of_prefix fun pre n post hns hpre hpart => ?_
    have hn : n ∈ ns := by simp [hns]
    rw [h.here n hn, h'.here n ((hmem n hpart).1 hn)]
    refine congrArg _ (compileNode_congr (hconn n hn hpart fun e he ht hsource => ?_) 0)
    by_cases hs : e.source ∈ pre.map Node.id
    · obtain ⟨m, hm, hid⟩ := List.mem_map.1 hs
      rw [← hid] at hsource ⊢
      exact hpre m hm hsource
    · refine hnot e.source hsource ?_
      rw [hns, List.map_append, List.mem_append, not_or]
      exact ⟨hs, (hc pre post n hns).2 e he ht⟩
  by_cases hin : id ∈ ns.map Node.id
  · obtain ⟨n, hn, rfl⟩ := List.mem_map.1 hin
    exact hsorted n hn hid
  · exact hnot id hid hin

/-- Two solutions agree on a part of the patch that no edge enters, if the same of its nodes are
sorted and the same edges are first into their inlets. -/
theorem settled_agree {edges' : List Edge} {dropped dropped' : Nat} {p p' : Pass}
    (part : String → Prop) (hc : Clear edges ns) (h : Settled registry edges ns dropped p)
    (h' : Settled registry edges' ns' dropped' p')
    (hmem : ∀ n, part n.id → (n ∈ ns ↔ n ∈ ns'))
    (hfind : ∀ id, part id → ∀ inlet,
      edges.find? (·.feeds id inlet) = edges'.find? (·.feeds id inlet))
    (hclosed : ∀ e ∈ edges, part e.target → part e.source) {id : String} (hid : part id) :
    p.outlets.find? id = p'.outlets.find? id := by
  refine settled_agree_on part hc h h' hmem (fun n _ hpart hsources inlet => ?_) hid
  rw [← Resolve.connection?_edges (hfind n.id hpart inlet.name)]
  refine Resolve.connection?_congr (fun e he ht => ?_) inlet
  exact hsources e he ht (hclosed e he (ht ▸ hpart))

theorem outlets_unique {edges' : List Edge} {dropped dropped' : Nat} {p p' : Pass}
    (hc : Clear edges ns) (h : Settled registry edges ns dropped p)
    (h' : Settled registry edges' ns' dropped' p')
    (hfind : ∀ id inlet, edges.find? (·.feeds id inlet) = edges'.find? (·.feeds id inlet))
    (hperm : ns.Perm ns') : p.outlets = p'.outlets := by
  apply Table.ext_find?
  intro id
  exact settled_agree (fun _ => True) hc h h' (fun _ _ => hperm.mem_iff) (fun id _ => hfind id)
    (fun _ _ _ => trivial) trivial

/-- There is one solution, in whatever order the nodes come and the edges into different inlets. -/
theorem settled_unique {edges' : List Edge} {dropped : Nat} {p p' : Pass} (hc : Clear edges ns)
    (h : Settled registry edges ns dropped p) (h' : Settled registry edges' ns' dropped p')
    (hfind : ∀ id inlet, edges.find? (·.feeds id inlet) = edges'.find? (·.feeds id inlet))
    (hperm : ns.Perm ns') : p = p' := by
  have ho := outlets_unique hc h h' hfind hperm
  have hnode (n : Node) :
      compileNode registry edges p'.outlets n 0 = compileNode registry edges' p'.outlets n 0 :=
    compileNode_congr (fun inlet => Resolve.connection?_edges (hfind n.id inlet.name)) 0
  have hs : p.stats = p'.stats := by
    rw [h.stats, h'.stats, ho]
    simp only [hnode]
    exact tally_perm (hperm.map _)
  obtain ⟨outlets, stats⟩ := p
  obtain ⟨outlets', stats'⟩ := p'
  simp only at ho hs
  rw [ho, hs]

end Compile

end Patchbay
