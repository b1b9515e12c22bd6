import Mathlib
import Patchbay.Proofs.Editing

/-!
# Edits are all or nothing

The edits once more as they work on one graph: an id is counted up number by number, places are
looked up before something is put there, and whatever has been changed when an edit fails stays
changed. As each of them checks everything before it changes anything, the counter of the ids
included, they come to the same as the edits that give a new graph, and an edit that fails might
as well not have been tried.
-/

set_option autoImplicit false

namespace Patchbay

/-! ## Places in a list -/

section Place

variable {α : Type} (p : α → Bool)

/-- The first entry with a property and its place. -/
def placed? (xs : List α) : Option (Nat × α) := do
  let i ← xs.findIdx? p
  let a ← xs[i]?
  return (i, a)

theorem placed?_cases (xs : List α) :
    (placed? p xs = none ∧ ∀ a ∈ xs, p a = false) ∨
      ∃ pre a post, xs = pre ++ a :: post ∧ placed? p xs = some (pre.length, a) ∧
        p a = true ∧ ∀ b ∈ pre, p b = false := by
  cases h : xs.findIdx? p with
  | none => exact .inl ⟨by simp [placed?, h], List.findIdx?_eq_none_iff.1 h⟩
  | some i =>
    obtain ⟨hi, hp, hbefore⟩ := List.findIdx?_eq_some_iff_getElem.1 h
    refine .inr ⟨xs.take i, xs[i], xs.drop (i + 1), by simp, ?_, hp, fun b hb => ?_⟩
    · simp [placed?, h, List.getElem?_eq_getElem hi, Nat.min_eq_left hi.le]
    · obtain ⟨j, hj, rfl⟩ := List.mem_take_iff_getElem.1 hb
      simpa using hbefore j (by omega)

theorem find?_eq_placed? (xs : List α) : xs.find? p = (placed? p xs).map Prod.snd := by
  rcases placed?_cases p xs with ⟨hnone, hall⟩ | ⟨pre, a, post, rfl, hsome, ha, hpre⟩
  · rw [hnone, Option.map_none, List.find?_eq_none]
    exact fun b hb => by simp [hall b hb]
  · rw [hsome, Option.map_some, List.find?_append, List.find?_eq_none.2 (by simpa using hpre),
      List.find?_cons_of_pos ha, Option.none_or]

variable {p} {xs : List α} {found : Nat × α}

theorem split_of_placed? (h : placed? p xs = some found) :
    ∃ pre post, xs = pre ++ found.2 :: post ∧ found.1 = pre.length ∧ p found.2 = true ∧
      ∀ b ∈ pre, p b = false := by
  rcases placed?_cases p xs with ⟨hnone, -⟩ | ⟨pre, a, post, rfl, hsome, ha, hpre⟩
  · rw [hnone] at h
    cases h
  · rw [hsome] at h
    cases h
    exact ⟨pre, post, rfl, rfl, ha, hpre⟩

theorem eraseIdx_of_placed? (h : placed? p xs = some found) :
    xs.eraseIdx found.1 = xs.eraseP p := by
  obtain ⟨pre, post, rfl, hlen, ha, hpre⟩ := split_of_placed? h
  rw [hlen, List.eraseP_append_right _ (by simpa using hpre), List.eraseP_cons_of_pos ha,
    List.eraseIdx_append_of_length_le (by simp)]
  simp

end Place

namespace PatchGraph

theorem node?_eq_placed? (g : PatchGraph) (id : String) :
    g.node? id = (placed? (·.id = id) g.nodes).map Prod.snd := find?_eq_placed? ..

theorem edge?_eq_placed? (g : PatchGraph) (id : String) :
    g.edge? id = (placed? (·.id = id) g.edges).map Prod.snd := find?_eq_placed? ..

theorem updateFirst_of_placed? {id : String} {ns : List Node} {found : Nat × Node}
    (h : placed? (·.id = id) ns = some found) (f : Node → Node) :
    updateFirst id f ns = ns.modify found.1 f := by
  obtain ⟨pre, post, rfl, hlen, ha, hpre⟩ := split_of_placed? h
  have hid : found.2.id = id := by simpa using ha
  rw [hlen]
  clear h hlen
  induction pre with
  | nil => simp [updateFirst, hid]
  | cons n pre ih =>
    have hn : n.id ≠ id := by simpa using hpre n (by simp)
    simpa [updateFirst, hn] using ih fun m hm => hpre m (by simp [hm])

theorem replaceFirst_of_placed? {id : String} {es : List Edge} {found : Nat × Edge}
    (h : placed? (·.id = id) es = some found) (e : Edge) :
    replaceFirst id e es = es.set found.1 e := by
  obtain ⟨pre, post, rfl, hlen, ha, hpre⟩ := split_of_placed? h
  have hid : found.2.id = id := by simpa using ha
  rw [hlen]
  clear h hlen
  induction pre with
  | nil => simp [replaceFirst, hid]
  | cons f pre ih =>
    have hf : f.id ≠ id := by simpa using hpre f (by simp)
    simpa [replaceFirst, hf] using ih fun m hm => hpre m (by simp [hm])

/-- The search for an id looks at the document alone. -/
theorem freeNumber_patch (g g' : PatchGraph) (h : g'.patch = g.patch) (stem : String)
    (fuel n : Nat) : g'.freeNumber stem fuel n = g.freeNumber stem fuel n := by
  have htaken (id : String) : g'.isTaken id = g.isTaken id := by
    simp only [isTaken, nodes, edges, h]
  induction fuel generalizing n with
  | zero => rfl
  | succ fuel ih => rw [freeNumber, freeNumber, htaken, ih]

@[simp] theorem freshId_edges (g : PatchGraph) (stem : String) :
    (g.freshId stem).2.edges = g.edges := rfl

end PatchGraph

/-! ## Working on one graph -/

/-- An edit that works on the graph itself. -/
abbrev InPlace (α : Type) := ExceptT GraphError (StateM PatchGraph) α

namespace InPlace

open PatchGraph

variable {α β : Type} {g : PatchGraph}

/-- What is answered to an edit, and the graph it leaves behind. -/
def on (x : InPlace α) (g : PatchGraph) : Except GraphError α × PatchGraph := (x.run.run g).run

@[simp] theorem on_pure (a : α) : (pure a : InPlace α).on g = (.ok a, g) := rfl

@[simp] theorem on_throw (e : GraphError) : (throw e : InPlace α).on g = (.error e, g) := rfl

@[simp] theorem on_get : (get : InPlace PatchGraph).on g = (.ok g, g) := rfl

@[simp] theorem on_modify (f : PatchGraph → PatchGraph) :
    (modify f : InPlace Unit).on g = (.ok (), f g) := rfl

theorem on_bind (x : InPlace α) (f : α → InPlace β) :
    (x >>= f).on g =
      match x.on g with
      | (.ok a, g') => (f a).on g'
      | (.error e, g') => (.error e, g') := by
  change (match x.on g with | (r, g') => InPlace.on (ExceptT.mk (ExceptT.bindCont f r)) g') = _
  rcases x.on g with ⟨e | a, g'⟩
  · rfl
  · rfl

/-- An edit in place comes to the same as one that gives a new graph. -/
def Does (x : InPlace α) (edit : PatchGraph → Except GraphError (α × PatchGraph)) : Prop :=
  ∀ g, x.on g = ((edit g).map Prod.fst, g.after (edit g))

theorem Does.map {x : InPlace α} {edit : PatchGraph → Except GraphError (α × PatchGraph)}
    (h : Does x edit) (f : α → β) :
    Does (f <$> x) fun g => (edit g).map (Prod.map f id) := by
  intro g
  rw [map_eq_pure_bind, on_bind, h g]
  beta_reduce
  cases edit g with
  | error e => rfl
  | ok result => rfl

/-! ### The steps -/

def check (f : PatchGraph → Except GraphError Unit) : InPlace Unit := do
  match f (← get) with
  | .ok () => return ()
  | .error e => throw e

def nodeAt (id : String) : InPlace (Nat × Node) := do
  match placed? (·.id = id) (← get).nodes with
  | some found => return found
  | none => throw (.nodeNotFound id)

def edgeAt (id : String) : InPlace (Nat × Edge) := do
  match placed? (·.id = id) (← get).edges with
  | some found => return found
  | none => throw (.edgeNotFound id)

def setNodes (f : List Node → List Node) : InPlace Unit := modify fun g => g.withNodes (f g.nodes)

def setEdges (f : List Edge → List Edge) : InPlace Unit := modify fun g => g.withEdges (f g.edges)

def countUp : InPlace Unit := modify fun g => { g with lastId := g.lastId + 1 }

/-- Counts up until an id is free. -/
def search (stem : String) : Nat → InPlace String
  | 0 => do
    countUp
    return PatchGraph.idAt stem (← get).lastId
  | fuel + 1 => do
    countUp
    let g ← get
    let id := PatchGraph.idAt stem g.lastId
    if g.isTaken id then search stem fuel else return id

def freshId (stem : String) : InPlace String := do
  let g ← get
  search stem (g.nodes.length + g.edges.length)

/-! ### The edits -/

def addNode (registry : Registry) (type : String) (position : Option Position) :
    InPlace String := do
  match registry.find? type with
  | none => throw (.unknownNodeType type)
  | some t =>
    let id ← freshId type
    setNodes (· ++ [⟨id, type, position, t.info.defaultData⟩])
    return id

def insertNode (node : Node) : InPlace Unit := do
  match (← get).node? node.id with
  | some _ => throw (.duplicateNode node.id)
  | none => setNodes (· ++ [node])

def removeNode (id : String) : InPlace Node := do
  let (i, node) ← nodeAt id
  setNodes (·.eraseIdx i)
  setEdges (·.filter (!·.touches id))
  return node

def updateNode (id : String) (f : Node → Node) : InPlace Unit := do
  let (i, _) ← nodeAt id
  setNodes (·.modify i f)

def connect (c : Connection) : InPlace String := do
  check (·.checkNode c.source)
  check (·.checkNode c.target)
  check (·.checkFree c fun _ => true)
  let id ← freshId "edge"
  setEdges (· ++ [c.toEdge id])
  return id

def reconnect (edge : String) (c : Connection) : InPlace String := do
  let (i, _) ← edgeAt edge
  check (·.checkNode c.source)
  check (·.checkNode c.target)
  check (·.checkFree c (·.id ≠ edge))
  let id ← freshId "edge"
  setEdges (·.set i (c.toEdge id))
  return id

def disconnect (id : String) : InPlace Edge := do
  let (i, e) ← edgeAt id
  setEdges (·.eraseIdx i)
  return e

/-! ### What the steps come to -/

theorem on_check_bind (f : PatchGraph → Except GraphError Unit) (k : Unit → InPlace β) :
    (check f >>= k).on g =
      match f g with
      | .ok () => (k ()).on g
      | .error e => (.error e, g) := by
  rw [on_bind, check, on_bind]
  cases h : f g <;> simp [h]

theorem on_nodeAt_bind (id : String) (k : Nat × Node → InPlace β) :
    (nodeAt id >>= k).on g =
      match placed? (·.id = id) g.nodes with
      | some found => (k found).on g
      | none => (.error (.nodeNotFound id), g) := by
  rw [on_bind, nodeAt, on_bind]
  cases h : placed? (fun n : Node => decide (n.id = id)) g.nodes <;> simp [h]

theorem on_edgeAt_bind (id : String) (k : Nat × Edge → InPlace β) :
    (edgeAt id >>= k).on g =
      match placed? (·.id = id) g.edges with
      | some found => (k found).on g
      | none => (.error (.edgeNotFound id), g) := by
  rw [on_bind, edgeAt, on_bind]
  cases h : placed? (fun e : Edge => decide (e.id = id)) g.edges <;> simp [h]

theorem on_search (stem : String) (fuel : Nat) (g : PatchGraph) :
    (search stem fuel).on g =
      (.ok (PatchGraph.idAt stem (g.freeNumber stem fuel g.lastId)),
        { g with lastId := g.freeNumber stem fuel g.lastId }) := by
  induction fuel generalizing g with
  | zero => rfl
  | succ fuel ih =>
    -- what is taken depends on the document alone, and counting does not change that
    have hcount (n : Nat) : PatchGraph.freeNumber { g with lastId := g.lastId + 1 } stem fuel n =
        g.freeNumber stem fuel n :=
      freeNumber_patch g { g with lastId := g.lastId + 1 } rfl stem fuel n
    rw [search, countUp, on_bind, on_modify]
    simp only [on_bind, on_get]
    rw [PatchGraph.freeNumber]
    by_cases htaken : g.isTaken (PatchGraph.idAt stem (g.lastId + 1)) = true
    · have htaken' : PatchGraph.isTaken { g with lastId := g.lastId + 1 }
          (PatchGraph.idAt stem (g.lastId + 1)) = true := htaken
      rw [if_pos htaken, if_pos htaken', ih, hcount]
    · have htaken' : ¬PatchGraph.isTaken { g with lastId := g.lastId + 1 }
          (PatchGraph.idAt stem (g.lastId + 1)) = true := htaken
      rw [if_neg htaken, if_neg htaken', on_pure]

theorem on_freshId_bind (stem : String) (k : String → InPlace β) :
    (freshId stem >>= k).on g = (k (g.freshId stem).1).on (g.freshId stem).2 := by
  have h : (freshId stem).on g = (.ok (g.freshId stem).1, (g.freshId stem).2) := by
    rw [freshId, on_bind]
    exact on_search ..
  rw [on_bind, h]

theorem on_setNodes_bind (f : List Node → List Node) (k : Unit → InPlace β) :
    (setNodes f >>= k).on g = (k ()).on (g.withNodes (f g.nodes)) := on_bind ..

theorem on_setEdges_bind (f : List Edge → List Edge) (k : Unit → InPlace β) :
    (setEdges f >>= k).on g = (k ()).on (g.withEdges (f g.edges)) := on_bind ..

/-! ### What the edits come to -/

theorem addNode_does (registry : Registry) (type : String) (position : Option Position) :
    Does (addNode registry type position) (·.addNode registry type position) := by
  intro g
  simp only [addNode, PatchGraph.addNode]
  cases registry.find? type with
  | none => rfl
  | some t =>
    simp only [on_freshId_bind, on_setNodes_bind, on_pure]
    rfl

theorem insertNode_does (node : Node) : Does (insertNode node) (·.insertNode node) := by
  intro g
  rw [insertNode, on_bind, on_get]
  simp only [PatchGraph.insertNode]
  cases g.node? node.id with
  | some m => rfl
  | none => rfl

theorem removeNode_does (id : String) : Does (removeNode id) (·.removeNode id) := by
  intro g
  rw [removeNode, on_nodeAt_bind]
  simp only [PatchGraph.removeNode, node?_eq_placed?]
  cases h : placed? (fun n : Node => decide (n.id = id)) g.nodes with
  | none => rfl
  | some found =>
    simp only [on_setNodes_bind, on_setEdges_bind, on_pure, Option.map_some,
      eraseIdx_of_placed? h]
    rfl

theorem updateNode_does (id : String) (f : Node → Node) :
    Does (updateNode id f) (·.updateNode id f) := by
  intro g
  rw [updateNode, on_nodeAt_bind]
  simp only [PatchGraph.updateNode, node?_eq_placed?]
  cases h : placed? (fun n : Node => decide (n.id = id)) g.nodes with
  | none => rfl
  | some found =>
    simp only [Option.map_some, updateFirst_of_placed? h]
    rfl

theorem connect_does (c : Connection) : Does (connect c) (·.connect c) := by
  intro g
  simp only [connect, PatchGraph.connect, on_check_bind]
  cases g.checkNode c.source with
  | error e => rfl
  | ok =>
    cases g.checkNode c.target with
    | error e => rfl
    | ok =>
      cases g.checkFree c fun _ => true with
      | error e => rfl
      | ok =>
        simp only [on_freshId_bind, on_setEdges_bind, on_pure]
        rfl

theorem reconnect_does (edge : String) (c : Connection) :
    Does (reconnect edge c) (·.reconnect edge c) := by
  intro g
  rw [reconnect, on_edgeAt_bind]
  simp only [PatchGraph.reconnect, edge?_eq_placed?]
  cases h : placed? (fun e : Edge => decide (e.id = edge)) g.edges with
  | none => rfl
  | some found =>
    simp only [on_check_bind, Option.map_some]
    cases g.checkNode c.source with
    | error e => rfl
    | ok =>
      cases g.checkNode c.target with
      | error e => rfl
      | ok =>
        cases g.checkFree c (·.id ≠ edge) with
        | error e => rfl
        | ok =>
          simp only [on_freshId_bind, on_setEdges_bind, on_pure]
          rw [PatchGraph.freshId_edges, replaceFirst_of_placed? h]
          rfl

theorem disconnect_does (id : String) : Does (disconnect id) (·.disconnect id) := by
  intro g
  rw [disconnect, on_edgeAt_bind]
  simp only [PatchGraph.disconnect, edge?_eq_placed?]
  cases h : placed? (fun e : Edge => decide (e.id = id)) g.edges with
  | none => rfl
  | some found =>
    simp only [on_setEdges_bind, on_pure, Option.map_some, eraseIdx_of_placed? h]
    rfl

end InPlace

/-! ## Refusals -/

namespace PatchGraph

variable (g : PatchGraph)

theorem node?_eq_none_iff_forall (id : String) :
    g.node? id = none ↔ ∀ n ∈ g.nodes, n.id ≠ id := by
  rw [node?_eq_none_iff, List.mem_map, not_exists]
  exact forall_congr' fun n => not_and

theorem edge?_eq_none_iff_forall (id : String) :
    g.edge? id = none ↔ ∀ e ∈ g.edges, e.id ≠ id := by
  rw [edge?_eq_none_iff, List.mem_map, not_exists]
  exact forall_congr' fun e => not_and

theorem checkNode_error_iff (id : String) :
    (∃ e, g.checkNode id = .error e) ↔ ∀ n ∈ g.nodes, n.id ≠ id := by
  rw [← node?_eq_none_iff_forall, checkNode]
  cases g.node? id <;> simp

theorem checkFree_error_iff (c : Connection) (counts : Edge → Bool) :
    (∃ e, g.checkFree c counts = .error e) ↔
      ∃ e ∈ g.edges, counts e ∧ e.target = c.target ∧ e.targetHandle = c.targetHandle := by
  have hfound : (∃ e ∈ g.edges, counts e ∧ e.target = c.target ∧ e.targetHandle = c.targetHandle) ↔
      ¬g.edges.find? (fun e => counts e && e.feeds c.target c.targetHandle) = none := by
    simp [List.find?_eq_none, Edge.feeds]
  rw [hfound, checkFree]
  cases g.edges.find? fun e => counts e && e.feeds c.target c.targetHandle <;> simp

end PatchGraph

theorem PatchGraph.updateNode_error_iff (g : PatchGraph) (id : String) (f : Node → Node) :
    (∃ e, g.updateNode id f = .error e) ↔ ∀ n ∈ g.nodes, n.id ≠ id := by
  rw [← node?_eq_none_iff_forall, updateNode]
  cases g.node? id <;> simp

/-! ## Calls -/

/-- What an edit tells the editor. -/
inductive Reply where
  | done
  | id (id : String)
  | node (node : Node)
  | edge (edge : Edge)

namespace EditCall

variable {α : Type}

def answer (f : α → Reply) (result : Except GraphError (α × PatchGraph)) :
    Except GraphError (Reply × PatchGraph) := result.map (Prod.map f id)

/-- A call as the edit that gives a new graph. -/
def edit (g : PatchGraph) : EditCall → Except GraphError (Reply × PatchGraph)
  | addNode registry type position => answer .id (g.addNode registry type position)
  | insertNode node => answer (fun _ => .done) (g.insertNode node)
  | removeNode id => answer .node (g.removeNode id)
  | setParam id key value => answer (fun _ => .done) (g.setParam id key value)
  | setPosition id position => answer (fun _ => .done) (g.setPosition id position)
  | connect c => answer .id (g.connect c)
  | reconnect edge c => answer .id (g.reconnect edge c)
  | disconnect id => answer .edge (g.disconnect id)
  | load p => .ok (.done, g.load p)

/-- A call as the edit that works on one graph. -/
def inPlace : EditCall → InPlace Reply
  | addNode registry type position => .id <$> InPlace.addNode registry type position
  | insertNode node => (fun _ => .done) <$> InPlace.insertNode node
  | removeNode id => .node <$> InPlace.removeNode id
  | setParam id key value => (fun _ => .done) <$> InPlace.updateNode id (·.set key value)
  | setPosition id position => (fun _ => .done) <$> InPlace.updateNode id (·.moveTo position)
  | connect c => .id <$> InPlace.connect c
  | reconnect edge c => .id <$> InPlace.reconnect edge c
  | disconnect id => .edge <$> InPlace.disconnect id
  | load p => do
    modify (·.load p)
    return .done

/-- What has to be wrong with a call for it to fail. -/
def Refused (g : PatchGraph) : EditCall → Prop
  | addNode registry type _ => ∀ t ∈ registry.types, t.info.id ≠ type
  | insertNode node => ∃ n ∈ g.nodes, n.id = node.id
  | removeNode id | setParam id _ _ | setPosition id _ => ∀ n ∈ g.nodes, n.id ≠ id
  | connect c =>
    (∀ n ∈ g.nodes, n.id ≠ c.source) ∨ (∀ n ∈ g.nodes, n.id ≠ c.target) ∨
      ∃ e ∈ g.edges, e.target = c.target ∧ e.targetHandle = c.targetHandle
  | reconnect edge c =>
    (∀ e ∈ g.edges, e.id ≠ edge) ∨ (∀ n ∈ g.nodes, n.id ≠ c.source) ∨
      (∀ n ∈ g.nodes, n.id ≠ c.target) ∨
      ∃ e ∈ g.edges, e.id ≠ edge ∧ e.target = c.target ∧ e.targetHandle = c.targetHandle
  | disconnect id => ∀ e ∈ g.edges, e.id ≠ id
  | load _ => False

/-- Calls one after another on one graph: what is answered to each, and what is left. -/
def session (g : PatchGraph) : List EditCall → List (Except GraphError Reply) × PatchGraph
  | [] => ([], g)
  | call :: calls =>
    let (answer, g) := call.inPlace.on g
    let (answers, g) := session g calls
    (answer :: answers, g)

/-- The calls that do not fail when their turn comes. -/
def heeded (g : PatchGraph) : List EditCall → List EditCall
  | [] => []
  | call :: calls =>
    match call.inPlace.on g with
    | (.ok _, g) => call :: heeded g calls
    | (.error _, g) => heeded g calls

theorem inPlace_does (call : EditCall) : call.inPlace.Does (call.edit ·) := by
  cases call with
  | addNode registry type position => exact (InPlace.addNode_does registry type position).map _
  | insertNode node => exact (InPlace.insertNode_does node).map _
  | removeNode id => exact (InPlace.removeNode_does id).map _
  | setParam id key value => exact (InPlace.updateNode_does id (·.set key value)).map _
  | setPosition id position => exact (InPlace.updateNode_does id (·.moveTo position)).map _
  | connect c => exact (InPlace.connect_does c).map _
  | reconnect edge c => exact (InPlace.reconnect_does edge c).map _
  | disconnect id => exact (InPlace.disconnect_does id).map _
  | load p => exact fun g => rfl

theorem after_answer (g : PatchGraph) (f : α → Reply)
    (result : Except GraphError (α × PatchGraph)) :
    g.after (answer f result) = g.after result := by
  cases result <;> rfl

theorem apply_eq (g : PatchGraph) (call : EditCall) : apply g call = g.after (call.edit g) := by
  cases call with
  | load p => rfl
  | _ => exact (after_answer ..).symm

theorem on_inPlace (g : PatchGraph) (call : EditCall) :
    call.inPlace.on g = ((call.edit g).map Prod.fst, apply g call) := by
  rw [apply_eq]
  exact inPlace_does call g

theorem edit_error_iff (g : PatchGraph) (call : EditCall) :
    (∃ e, call.edit g = .error e) ↔ call.Refused g := by
  cases call with
  | addNode registry type position =>
    rw [edit, answer, map_error_iff, PatchGraph.addNode, Refused]
    have hnone : registry.find? type = none ↔ ∀ t ∈ registry.types, t.info.id ≠ type := by
      simp [Registry.find?]
    rw [← hnone]
    cases registry.find? type <;> simp
  | insertNode node =>
    rw [edit, answer, map_error_iff, PatchGraph.insertNode, Refused]
    have hnone := g.node?_eq_none_iff_forall node.id
    cases hn : g.node? node.id <;> simp_all
  | removeNode id =>
    rw [edit, answer, map_error_iff, PatchGraph.removeNode, Refused,
      ← g.node?_eq_none_iff_forall]
    cases g.node? id <;> simp
  | setParam id key value =>
    rw [edit, answer, map_error_iff, Refused]
    exact g.updateNode_error_iff id _
  | setPosition id position =>
    rw [edit, answer, map_error_iff, Refused]
    exact g.updateNode_error_iff id _
  | connect c =>
    rw [edit, answer, map_error_iff, Refused, PatchGraph.connect]
    simp only [bind_error_iff, PatchGraph.checkNode_error_iff, PatchGraph.checkFree_error_iff]
    simp [pure, Except.pure]
  | reconnect edge c =>
    rw [edit, answer, map_error_iff, Refused, PatchGraph.reconnect,
      ← g.edge?_eq_none_iff_forall]
    cases g.edge? edge with
    | none => exact ⟨fun _ => .inl rfl, fun _ => ⟨_, rfl⟩⟩
    | some e =>
      simp only [bind_error_iff, PatchGraph.checkNode_error_iff, PatchGraph.checkFree_error_iff]
      simp [pure, Except.pure]
  | disconnect id =>
    rw [edit, answer, map_error_iff, PatchGraph.disconnect, Refused,
      ← g.edge?_eq_none_iff_forall]
    cases g.edge? id <;> simp
  | load p => simp [edit, Refused]

theorem on_inPlace_error_iff (g : PatchGraph) (call : EditCall) :
    (∃ e, (call.inPlace.on g).1 = .error e) ↔ call.Refused g := by
  rw [on_inPlace, map_error_iff, edit_error_iff]

theorem on_inPlace_of_refused {g : PatchGraph} {call : EditCall} (h : call.Refused g) :
    (call.inPlace.on g).2 = g := by
  obtain ⟨e, he⟩ := (edit_error_iff g call).2 h
  rw [on_inPlace, apply_eq, he]
  rfl

theorem session_cons (g : PatchGraph) (call : EditCall) (calls : List EditCall) :
    session g (call :: calls) =
      ((call.inPlace.on g).1 :: (session (call.inPlace.on g).2 calls).1,
        (session (call.inPlace.on g).2 calls).2) := rfl

/-- Failing calls can be struck out of a session. -/
theorem session_heeded (g : PatchGraph) (calls : List EditCall) :
    session g (heeded g calls) =
      ((session g calls).1.filter (·.isOk), (session g calls).2) := by
  induction calls generalizing g with
  | nil => rfl
  | cons call calls ih =>
    rw [session_cons, heeded]
    rcases h : call.inPlace.on g with ⟨e | a, g'⟩
    · have hrefused : call.Refused g := (on_inPlace_error_iff g call).1 ⟨e, by rw [h]⟩
      obtain rfl : g' = g := by simpa [h] using on_inPlace_of_refused hrefused
      exact ih g'
    · dsimp only
      rw [session_cons, h, ih g']
      rfl

end EditCall

open EditCall in
/-- An edit in place fails exactly if the call is one to be refused. Then the document and the
count of the ids are what they were, and all later calls are answered as if it had not been made;
so whatever fails in a session can be struck out of it. -/
theorem edits_atomic (g : PatchGraph) (call : EditCall) :
    call.inPlace.on g = ((call.edit g).map Prod.fst, apply g call) ∧
    ((∃ e, (call.inPlace.on g).1 = .error e) ↔ call.Refused g) ∧
    (call.Refused g → (call.inPlace.on g).2 = g ∧
      ∀ later, session g (call :: later) =
        ((call.inPlace.on g).1 :: (session g later).1, (session g later).2)) ∧
    ∀ calls, session g (heeded g calls) =
      ((session g calls).1.filter (·.isOk), (session g calls).2) := by
  refine ⟨on_inPlace g call, on_inPlace_error_iff g call, fun h => ?_, session_heeded g⟩
  have hsame := on_inPlace_of_refused h
  exact ⟨hsame, fun later => by rw [session_cons, hsame]⟩

/-- A document in which an inlet has two edges, one of them under an id that occurs twice. -/
def doubled : Patch :=
  ⟨[.new "n" "number", .new "out" "output"],
    [⟨"a", "n", "signal", "out", "left"⟩, ⟨"b", "n", "signal", "out", "left"⟩,
      ⟨"b", "n", "signal", "out", "right"⟩]⟩

theorem edits_atomic_doubled :
    let g : PatchGraph := ⟨doubled, 6⟩
    let call : EditCall := .reconnect "b" ⟨"n", "signal", "out", "left"⟩
    let later : List EditCall := [.disconnect "a", call]
    call.Refused g ∧ (call.inPlace.on g).2 = g ∧
      (EditCall.session g (call :: later)).1.map Except.isOk = [false, true, true] ∧
      (EditCall.session g (call :: later)).2.lastId = 7 := by
  intro g call later
  have hrefused : call.Refused g :=
    .inr (.inr (.inr ⟨⟨"a", "n", "signal", "out", "left"⟩, by decide, by decide, rfl, rfl⟩))
  obtain ⟨-, -, hatomic, -⟩ := edits_atomic g call
  obtain ⟨hsame, hlater⟩ := hatomic hrefused
  rw [hlater]
  exact ⟨hrefused, hsame, by decide, by decide⟩

end Patchbay
