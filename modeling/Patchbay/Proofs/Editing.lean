import Mathlib
import Patchbay.Proofs.Fallible
import Patchbay.Proofs.FreshId
import Patchbay.Proofs.WellFormed

/-!
# Edits keep a patch well formed

Each edit checks just what keeps the document well formed. The move of an edge leaves the edge
itself out of the check of the inlet by its id, which is enough because no other edge has it.
-/

set_option autoImplicit false

namespace Patchbay

namespace WellFormed

variable {ns ns' : List Node} {es es' : List Edge}

theorem empty : WellFormed .empty := by
  refine ⟨?_, ?_, ?_, ?_⟩ <;> simp [Patch.empty]

theorem addNode (h : WellFormed ⟨ns, es⟩) {n : Node} (hn : n.id ∉ ns.map Node.id) :
    WellFormed ⟨ns ++ [n], es⟩ := by
  refine ⟨?_, h.edgeIds, fun e he => ?_, h.inlets⟩
  · rw [List.map_append, List.nodup_append]
    refine ⟨h.nodeIds, by simp, fun id hid id' hid' => ?_⟩
    rintro rfl
    rw [List.map_singleton, List.mem_singleton] at hid'
    exact hn (hid' ▸ hid)
  · obtain ⟨hs, ht⟩ := h.ends e he
    rw [List.map_append, List.mem_append, List.mem_append]
    exact ⟨.inl hs, .inl ht⟩

theorem ofIds (h : WellFormed ⟨ns, es⟩) (hids : ns'.map Node.id = ns.map Node.id) :
    WellFormed ⟨ns', es⟩ := by
  refine ⟨?_, h.edgeIds, ?_, h.inlets⟩
  · rw [hids]
    exact h.nodeIds
  · rw [hids]
    exact h.ends

theorem dropEdges (h : WellFormed ⟨ns, es⟩) (hes : es'.Sublist es) : WellFormed ⟨ns, es'⟩ :=
  ⟨h.nodeIds, h.edgeIds.sublist (hes.map _), fun e he => h.ends e (hes.subset he),
    h.inlets.sublist (hes.map _)⟩

theorem removeNode (h : WellFormed ⟨ns, es⟩) (id : String) :
    WellFormed ⟨ns.eraseP (·.id = id), es.filter (!·.touches id)⟩ := by
  have hkept (id' : String) (hid : id' ∈ ns.map Node.id) (hne : id' ≠ id) :
      id' ∈ (ns.eraseP (·.id = id)).map Node.id := by
    obtain ⟨n, hn, rfl⟩ := List.mem_map.1 hid
    exact List.mem_map_of_mem ((List.mem_eraseP_of_neg (by simpa using hne)).2 hn)
  have hdropped := h.dropEdges (List.filter_sublist (p := (!·.touches id)))
  refine ⟨h.nodeIds.sublist (List.eraseP_sublist.map _), hdropped.edgeIds, fun e he => ?_,
    hdropped.inlets⟩
  obtain ⟨hs, ht⟩ := hdropped.ends e he
  have htouch := (List.mem_filter.1 he).2
  simp only [Edge.touches, Bool.not_or, Bool.and_eq_true, Bool.not_eq_true',
    decide_eq_false_iff_not] at htouch
  exact ⟨hkept _ hs htouch.1, hkept _ ht htouch.2⟩

/-- An edge with an id and an inlet of its own, put in anywhere. -/
theorem addEdge {pre post : List Edge} (h : WellFormed ⟨ns, pre ++ post⟩) {e : Edge}
    (hid : e.id ∉ (pre ++ post).map Edge.id) (hinlet : ∀ f ∈ pre ++ post, f.inlet ≠ e.inlet)
    (hs : e.source ∈ ns.map Node.id) (ht : e.target ∈ ns.map Node.id) :
    WellFormed ⟨ns, pre ++ e :: post⟩ := by
  refine ⟨h.nodeIds, ?_, fun f hf => ?_, ?_⟩
  · have := h.edgeIds
    simp only [List.map_append, List.map_cons] at hid this ⊢
    exact List.nodup_middle.2 (List.nodup_cons.2 ⟨hid, this⟩)
  · rcases List.mem_append.1 hf with hf | hf
    · exact h.ends f (List.mem_append_left _ hf)
    · rcases List.mem_cons.1 hf with rfl | hf
      · exact ⟨hs, ht⟩
      · exact h.ends f (List.mem_append_right _ hf)
  · have hnot : e.inlet ∉ (pre ++ post).map Edge.inlet := by
      intro hmem
      obtain ⟨f, hf, heq⟩ := List.mem_map.1 hmem
      exact hinlet f hf heq
    have := h.inlets
    simp only [List.map_append, List.map_cons] at hnot this ⊢
    exact List.nodup_middle.2 (List.nodup_cons.2 ⟨hnot, this⟩)

theorem snocEdge (h : WellFormed ⟨ns, es⟩) {e : Edge} (hid : e.id ∉ es.map Edge.id)
    (hinlet : ∀ f ∈ es, f.inlet ≠ e.inlet) (hs : e.source ∈ ns.map Node.id)
    (ht : e.target ∈ ns.map Node.id) : WellFormed ⟨ns, es ++ [e]⟩ := by
  rw [← List.append_nil es] at h hid hinlet
  exact h.addEdge hid hinlet hs ht

end WellFormed

namespace PatchGraph

variable {g g' : PatchGraph}

theorem node?_eq_none_iff (g : PatchGraph) (id : String) :
    g.node? id = none ↔ id ∉ g.nodes.map Node.id := by
  simp [node?, Patch.findNode?, nodes]

theorem edge?_eq_none_iff (g : PatchGraph) (id : String) :
    g.edge? id = none ↔ id ∉ g.edges.map Edge.id := by
  simp [edge?, Patch.findEdge?, edges]

theorem freshId_not_node (g : PatchGraph) (stem : String) :
    (g.freshId stem).1 ∉ g.nodes.map Node.id :=
  fun h => freshId_not_mem g stem (List.mem_append_left _ h)

theorem freshId_not_edge (g : PatchGraph) (stem : String) :
    (g.freshId stem).1 ∉ g.edges.map Edge.id :=
  fun h => freshId_not_mem g stem (List.mem_append_right _ h)

theorem addNode_wellFormed (h : WellFormed g.patch) {registry : Registry} {type id : String}
    {position : Option Position} (hok : g.addNode registry type position = .ok (id, g')) :
    WellFormed g'.patch := by
  rw [addNode] at hok
  cases hf : registry.find? type with
  | none => rw [hf] at hok; cases hok
  | some t =>
    rw [hf] at hok
    cases hok
    exact h.addNode (freshId_not_node g type)

theorem insertNode_wellFormed (h : WellFormed g.patch) {n : Node}
    (hok : g.insertNode n = .ok ((), g')) : WellFormed g'.patch := by
  rw [insertNode] at hok
  cases hf : g.node? n.id with
  | some m => rw [hf] at hok; cases hok
  | none =>
    rw [hf] at hok
    cases hok
    exact h.addNode ((node?_eq_none_iff g n.id).1 hf)

theorem removeNode_wellFormed (h : WellFormed g.patch) {id : String} {n : Node}
    (hok : g.removeNode id = .ok (n, g')) : WellFormed g'.patch := by
  rw [removeNode] at hok
  cases hf : g.node? id with
  | none => rw [hf] at hok; cases hok
  | some m =>
    rw [hf] at hok
    cases hok
    exact h.removeNode id

theorem map_id_updateFirst (id : String) {f : Node → Node} (hf : ∀ n, (f n).id = n.id)
    (ns : List Node) : (updateFirst id f ns).map Node.id = ns.map Node.id := by
  induction ns with
  | nil => rfl
  | cons n ns ih =>
    rw [updateFirst]
    split
    · rw [List.map_cons, List.map_cons, hf]
    · rw [List.map_cons, List.map_cons, ih]

theorem updateNode_wellFormed (h : WellFormed g.patch) {id : String} {f : Node → Node}
    (hf : ∀ n, (f n).id = n.id) (hok : g.updateNode id f = .ok ((), g')) :
    WellFormed g'.patch := by
  rw [updateNode] at hok
  cases hn : g.node? id with
  | none => rw [hn] at hok; cases hok
  | some m =>
    rw [hn] at hok
    cases hok
    exact h.ofIds (map_id_updateFirst id hf g.nodes)

theorem checkNode_ok {id : String} (h : g.checkNode id = .ok ()) : id ∈ g.nodes.map Node.id := by
  rw [checkNode] at h
  cases hn : g.node? id with
  | none => rw [hn] at h; cases h
  | some n =>
    by_contra hid
    rw [(node?_eq_none_iff g id).2 hid] at hn
    cases hn

theorem checkFree_ok {c : Connection} {counts : Edge → Bool} (h : g.checkFree c counts = .ok ()) :
    ∀ e ∈ g.edges, counts e → e.inlet ≠ (c.target, c.targetHandle) := by
  rw [checkFree] at h
  cases hf : g.edges.find? fun e => counts e && e.feeds c.target c.targetHandle with
  | some e => rw [hf] at h; cases h
  | none =>
    intro e he hcounts hinlet
    have := List.find?_eq_none.1 hf e he
    simp [hcounts, (Edge.feeds_iff _ _ _).2 hinlet] at this

theorem connect_wellFormed (h : WellFormed g.patch) {c : Connection} {id : String}
    (hok : g.connect c = .ok (id, g')) : WellFormed g'.patch := by
  obtain ⟨_, hs, hok⟩ := ok_of_bind hok
  obtain ⟨_, ht, hok⟩ := ok_of_bind hok
  obtain ⟨_, hfree, hok⟩ := ok_of_bind hok
  cases hok
  exact h.snocEdge (freshId_not_edge g "edge") (fun f hf => checkFree_ok hfree f hf rfl)
    (checkNode_ok hs) (checkNode_ok ht)

theorem replaceFirst_split {id : String} {es : List Edge} (h : id ∈ es.map Edge.id) :
    ∃ pre old post, es = pre ++ old :: post ∧ old.id = id ∧
      ∀ e, replaceFirst id e es = pre ++ e :: post := by
  induction es with
  | nil => simp at h
  | cons f es ih =>
    by_cases hf : f.id = id
    · exact ⟨[], f, es, rfl, hf, fun e => by rw [replaceFirst, if_pos hf]; rfl⟩
    · obtain ⟨pre, old, post, rfl, hold, hreplace⟩ := ih (by
        rw [List.map_cons, List.mem_cons] at h
        exact h.resolve_left fun heq => hf heq.symm)
      exact ⟨f :: pre, old, post, rfl, hold, fun e => by
        rw [replaceFirst, if_neg hf, hreplace]; rfl⟩

theorem moveEdge_wellFormed {ns : List Node} {es : List Edge} (h : WellFormed ⟨ns, es⟩)
    {edge : String} (hedge : edge ∈ es.map Edge.id) {e : Edge} (hid : e.id ∉ es.map Edge.id)
    (hinlet : ∀ f ∈ es, f.id ≠ edge → f.inlet ≠ e.inlet) (hs : e.source ∈ ns.map Node.id)
    (ht : e.target ∈ ns.map Node.id) : WellFormed ⟨ns, replaceFirst edge e es⟩ := by
  obtain ⟨pre, old, post, rfl, rfl, hreplace⟩ := replaceFirst_split hedge
  have hsub : (pre ++ post).Sublist (pre ++ old :: post) :=
    List.Sublist.append_left (List.sublist_cons_self _ _) _
  have hunique : old.id ∉ (pre ++ post).map Edge.id := by
    have := h.edgeIds
    rw [List.map_append, List.map_cons, List.nodup_middle, ← List.map_append] at this
    exact (List.nodup_cons.1 this).1
  rw [hreplace]
  refine (h.dropEdges hsub).addEdge (fun hmem => hid ((hsub.map _).subset hmem)) ?_ hs ht
  intro f hf
  exact hinlet f (hsub.subset hf) fun heq => hunique (heq ▸ List.mem_map_of_mem hf)

theorem reconnect_wellFormed (h : WellFormed g.patch) {edge id : String} {c : Connection}
    (hok : g.reconnect edge c = .ok (id, g')) : WellFormed g'.patch := by
  rw [reconnect] at hok
  cases hf : g.edge? edge with
  | none => rw [hf] at hok; cases hok
  | some old =>
    have hedge : edge ∈ g.edges.map Edge.id := by
      by_contra hnot
      rw [(edge?_eq_none_iff g edge).2 hnot] at hf
      cases hf
    rw [hf] at hok
    obtain ⟨_, hs, hok⟩ := ok_of_bind hok
    obtain ⟨_, ht, hok⟩ := ok_of_bind hok
    obtain ⟨_, hfree, hok⟩ := ok_of_bind hok
    cases hok
    exact moveEdge_wellFormed h hedge (freshId_not_edge g "edge")
      (fun f hmem hne => checkFree_ok hfree f hmem (by simpa using hne)) (checkNode_ok hs)
      (checkNode_ok ht)

theorem disconnect_wellFormed (h : WellFormed g.patch) {id : String} {e : Edge}
    (hok : g.disconnect id = .ok (e, g')) : WellFormed g'.patch := by
  rw [disconnect] at hok
  cases hf : g.edge? id with
  | none => rw [hf] at hok; cases hok
  | some old =>
    rw [hf] at hok
    cases hok
    exact h.dropEdges List.eraseP_sublist

/-- The graph after an edit; one that fails leaves it as it is. -/
def after {α : Type} (g : PatchGraph) : Except GraphError (α × PatchGraph) → PatchGraph
  | .ok (_, g') => g'
  | .error _ => g

theorem after_wellFormed {α : Type} (h : WellFormed g.patch)
    {r : Except GraphError (α × PatchGraph)}
    (hok : ∀ a g', r = .ok (a, g') → WellFormed g'.patch) : WellFormed (g.after r).patch := by
  cases r with
  | error e => exact h
  | ok result => exact hok result.1 result.2 rfl

end PatchGraph

/-- What an editor does with a graph. -/
inductive EditCall where
  | addNode (registry : Registry) (type : String) (position : Option Position)
  | insertNode (node : Node)
  | removeNode (id : String)
  | setParam (id key : String) (value : Param)
  | setPosition (id : String) (position : Position)
  | connect (c : Connection)
  | reconnect (edge : String) (c : Connection)
  | disconnect (id : String)
  | load (p : Patch)

namespace EditCall

def apply (g : PatchGraph) : EditCall → PatchGraph
  | addNode registry type position => g.after (g.addNode registry type position)
  | insertNode node => g.after (g.insertNode node)
  | removeNode id => g.after (g.removeNode id)
  | setParam id key value => g.after (g.setParam id key value)
  | setPosition id position => g.after (g.setPosition id position)
  | connect c => g.after (g.connect c)
  | reconnect edge c => g.after (g.reconnect edge c)
  | disconnect id => g.after (g.disconnect id)
  | load p => g.load p

def run (g : PatchGraph) (calls : List EditCall) : PatchGraph := calls.foldl apply g

theorem apply_wellFormed {g : PatchGraph} (h : WellFormed g.patch) (call : EditCall)
    (hload : ∀ p, call = .load p → WellFormed p) : WellFormed (apply g call).patch := by
  cases call with
  | addNode registry type position =>
    exact g.after_wellFormed h fun _ _ hok => PatchGraph.addNode_wellFormed h hok
  | insertNode node =>
    exact g.after_wellFormed h fun _ _ hok => PatchGraph.insertNode_wellFormed h hok
  | removeNode id =>
    exact g.after_wellFormed h fun _ _ hok => PatchGraph.removeNode_wellFormed h hok
  | setParam id key value =>
    exact g.after_wellFormed h fun _ _ hok =>
      PatchGraph.updateNode_wellFormed (f := (·.set key value)) h (fun _ => rfl) hok
  | setPosition id position =>
    exact g.after_wellFormed h fun _ _ hok =>
      PatchGraph.updateNode_wellFormed (f := (·.moveTo position)) h (fun _ => rfl) hok
  | connect c =>
    exact g.after_wellFormed h fun _ _ hok => PatchGraph.connect_wellFormed h hok
  | reconnect edge c =>
    exact g.after_wellFormed h fun _ _ hok => PatchGraph.reconnect_wellFormed h hok
  | disconnect id =>
    exact g.after_wellFormed h fun _ _ hok => PatchGraph.disconnect_wellFormed h hok
  | load p => exact hload p rfl

theorem run_wellFormed {g : PatchGraph} (h : WellFormed g.patch) {calls : List EditCall}
    (hload : ∀ p, .load p ∈ calls → WellFormed p) : WellFormed (run g calls).patch := by
  induction calls generalizing g with
  | nil => exact h
  | cons call calls ih =>
    have hcall := apply_wellFormed h call fun p hp => hload p (by simp [hp])
    exact ih hcall fun p hp => hload p (List.mem_cons_of_mem _ hp)

end EditCall

/-- Where an editor starts. -/
inductive PatchGraph.Start : PatchGraph → Prop
  | empty : Start .empty
  | withDefaultOutput : Start .withDefaultOutput
  | ofPatch (p : Patch) (h : WellFormed p) : Start (.ofPatch p)
  | load (g : PatchGraph) (p : Patch) (h : WellFormed p) : Start (g.load p)

theorem PatchGraph.start_wellFormed {g : PatchGraph} (h : Start g) : WellFormed g.patch := by
  cases h with
  | empty => exact .empty
  | withDefaultOutput => exact WellFormed.empty.addNode (by simp)
  | ofPatch p h => exact h
  | load g p h => exact h

/-- An editor that loads nothing but well-formed documents never leaves one that is not, and a
check, whatever node types there are, says so. -/
theorem edits_wellFormed (start : PatchGraph) (hstart : start.Start) (calls : List EditCall)
    (hload : ∀ p, .load p ∈ calls → WellFormed p) :
    WellFormed (EditCall.run start calls).patch ∧
      (∀ registry, ∀ q ∈ Check.patch registry (EditCall.run start calls).patch, ¬q.Structural) ∧
      ∀ registry p, (∀ q ∈ Check.patch registry p, ¬q.Structural) ↔ WellFormed p := by
  have h := EditCall.run_wellFormed (PatchGraph.start_wellFormed hstart) hload
  exact ⟨h, fun registry => (Check.clean_patch _).2 h, fun registry p => Check.clean_patch p⟩

def sketch : Patch :=
  ⟨[⟨"n", "number", none, .empty⟩, ⟨"out", "output", none, .empty⟩],
    [⟨"a", "n", "signal", "out", "left"⟩]⟩

theorem wellFormed_sketch : WellFormed sketch :=
  ⟨by decide, by decide, by decide, by decide⟩

theorem edits_wellFormed_sketch :
    let calls : List EditCall :=
      [.reconnect "a" ⟨"n", "signal", "out", "right"⟩, .load sketch, .removeNode "n"]
    WellFormed (EditCall.run (.ofPatch sketch) calls).patch ∧
      ∀ q ∈ Check.patch .empty (EditCall.run (.ofPatch sketch) calls).patch, ¬q.Structural := by
  intro calls
  have hload : ∀ p, .load p ∈ calls → WellFormed p := by
    intro p hp
    simp only [calls, List.mem_cons, reduceCtorEq, EditCall.load.injEq, List.not_mem_nil, or_false,
      false_or] at hp
    rw [hp]
    exact wellFormed_sketch
  have h := edits_wellFormed (.ofPatch sketch) (.ofPatch sketch wellFormed_sketch) calls hload
  exact ⟨h.1, h.2.1 .empty⟩

end Patchbay
