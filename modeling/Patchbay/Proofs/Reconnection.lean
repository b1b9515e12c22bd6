import Mathlib
import Patchbay.Proofs.Atomicity

/-!
# Moving an edge

To move an edge is to take it out and to put another one in. The two ways of doing so look at
different lists: the move leaves the edge out by its id, and the two edits have no such edge any
more. Where no id occurs twice this is the same, so both are refused for the same reason; but the
move keeps the place of the edge, does not take its id again and, when it fails, has not taken the
edge out.
-/

set_option autoImplicit false

namespace Patchbay

namespace PatchGraph

variable {g : PatchGraph} {edge : String} {c : Connection} {old : Edge}

/-- All that is checked of a new connection. -/
def allow (g : PatchGraph) (c : Connection) (counts : Edge → Bool) : Except GraphError Unit := do
  g.checkNode c.source
  g.checkNode c.target
  g.checkFree c counts

theorem connect_eq (g : PatchGraph) (c : Connection) :
    g.connect c = (g.allow c fun _ => true).map fun _ => ((g.freshId "edge").1,
      (g.freshId "edge").2.withEdges (g.edges ++ [c.toEdge (g.freshId "edge").1])) := by
  rw [connect, allow]
  cases g.checkNode c.source with
  | error e => rfl
  | ok =>
    cases g.checkNode c.target with
    | error e => rfl
    | ok => cases g.checkFree c fun _ => true <;> rfl

theorem reconnect_eq (h : g.edge? edge = some old) :
    g.reconnect edge c = (g.allow c (·.id ≠ edge)).map fun _ => ((g.freshId "edge").1,
      (g.freshId "edge").2.withEdges
        (replaceFirst edge (c.toEdge (g.freshId "edge").1) g.edges)) := by
  rw [reconnect, h, allow]
  cases g.checkNode c.source with
  | error e => rfl
  | ok =>
    cases g.checkNode c.target with
    | error e => rfl
    | ok => cases g.checkFree c (·.id ≠ edge) <;> rfl

/-- Where no id occurs twice, to leave out the first edge of an id is to leave out all. -/
theorem eraseP_eq_filter {es : List Edge} (h : (es.map Edge.id).Nodup) (edge : String) :
    es.eraseP (·.id = edge) = es.filter (·.id ≠ edge) := by
  induction es with
  | nil => rfl
  | cons e es ih =>
    rw [List.map_cons, List.nodup_cons] at h
    by_cases he : e.id = edge
    · have hrest : ∀ f ∈ es, decide (f.id ≠ edge) = true := by
        intro f hf
        rw [decide_eq_true_eq, ← he]
        intro hid
        exact h.1 (hid ▸ List.mem_map_of_mem hf)
      rw [List.eraseP_cons_of_pos (by simpa using he), List.filter_cons_of_neg (by simpa using he),
        List.filter_eq_self.2 hrest]
    · rw [List.eraseP_cons_of_neg (by simpa using he), List.filter_cons_of_pos (by simpa using he),
        ih h.2]

/-- An edge that is left out by its id might as well not be there. -/
theorem allow_eraseP (h : (g.edges.map Edge.id).Nodup) (edge : String) (c : Connection) :
    (g.withEdges (g.edges.eraseP (·.id = edge))).allow c (fun _ => true) =
      g.allow c (·.id ≠ edge) := by
  have hfind : ((g.edges.eraseP (·.id = edge)).find? fun e =>
      true && e.feeds c.target c.targetHandle) =
      g.edges.find? fun e => decide (e.id ≠ edge) && e.feeds c.target c.targetHandle := by
    rw [eraseP_eq_filter h, List.find?_filter]
    congr 1
    funext e
    simp only [Bool.true_and, Bool.decide_and, Bool.decide_eq_true]
  have hfree : (g.withEdges (g.edges.eraseP (·.id = edge))).checkFree c (fun _ => true) =
      g.checkFree c (·.id ≠ edge) := by
    rw [checkFree, checkFree, ← hfind]
    rfl
  rw [allow, allow, hfree]
  rfl

end PatchGraph

namespace InPlace

open PatchGraph

/-- An edge is taken out, and then another one is put in. -/
def rewire (edge : String) (c : Connection) : InPlace String := do
  let _ ← disconnect edge
  connect c

theorem on_rewire (edge : String) (c : Connection) (g : PatchGraph) :
    (rewire edge c).on g =
      match g.disconnect edge with
      | .ok (_, without) => ((without.connect c).map Prod.fst, without.after (without.connect c))
      | .error e => (.error e, g) := by
  rw [rewire, on_bind, disconnect_does]
  beta_reduce
  cases g.disconnect edge with
  | error e => rfl
  | ok result => exact connect_does c result.2

end InPlace

namespace PatchGraph

variable {g : PatchGraph} {edge : String} {old : Edge}

theorem edge?_split (h : g.edge? edge = some old) :
    ∃ pre post, g.edges = pre ++ old :: post ∧ old.id = edge ∧
      (∀ e, replaceFirst edge e g.edges = pre ++ e :: post) ∧
      g.edges.eraseP (·.id = edge) = pre ++ post := by
  rw [edge?_eq_placed?, Option.map_eq_some_iff] at h
  obtain ⟨found, hplaced, rfl⟩ := h
  obtain ⟨pre, post, hedges, hlen, hid, hpre⟩ := split_of_placed? hplaced
  have hfound : found.2.id = edge := by simpa using hid
  refine ⟨pre, post, hedges, hfound, fun e => ?_, ?_⟩
  · rw [replaceFirst_of_placed? hplaced, hedges, hlen, List.set_append_right _ _ (Nat.le_refl _),
      Nat.sub_self, List.set_cons_zero]
  · rw [hedges, List.eraseP_append_right _ (by simpa using hpre),
      List.eraseP_cons_of_pos (by simpa using hfound)]

theorem on_reconnect_some (h : g.edge? edge = some old) (c : Connection) :
    (InPlace.reconnect edge c).on g =
      match g.allow c (·.id ≠ edge) with
      | .ok () => (.ok (g.freshId "edge").1, (g.freshId "edge").2.withEdges
          (replaceFirst edge (c.toEdge (g.freshId "edge").1) g.edges))
      | .error e => (.error e, g) := by
  rw [InPlace.reconnect_does]
  beta_reduce
  rw [reconnect_eq h]
  cases g.allow c (·.id ≠ edge) <;> rfl

theorem on_rewire_some (h : g.edge? edge = some old) (hids : (g.edges.map Edge.id).Nodup)
    (c : Connection) :
    (InPlace.rewire edge c).on g =
      let without := g.withEdges (g.edges.eraseP (·.id = edge))
      match g.allow c (·.id ≠ edge) with
      | .ok () => (.ok (without.freshId "edge").1, (without.freshId "edge").2.withEdges
          (without.edges ++ [c.toEdge (without.freshId "edge").1]))
      | .error e => (.error e, without) := by
  rw [InPlace.on_rewire, disconnect, h]
  dsimp only
  rw [connect_eq, allow_eraseP hids]
  cases g.allow c (·.id ≠ edge) <;> rfl

end PatchGraph

/-- To move an edge is to take it out and to put another one in, both or neither: it succeeds where
both would, and is refused for the reason one of them would be. The nodes stay, and the edges that
are left are the same in the same order; the new one stands where the old one stood and not behind
all others, under an id that is fresh even while the old one counts. A move that fails leaves
everything as it was. -/
theorem reconnect_rewire (g : PatchGraph) (wellFormed : WellFormed g.patch) (edge : String)
    (c : Connection) :
    let once := (InPlace.reconnect edge c).on g
    let twice := (InPlace.rewire edge c).on g
    ((∃ id, once.1 = .ok id) ↔ ∃ id, twice.1 = .ok id) ∧
    (∀ e, once.1 = .error e ↔ twice.1 = .error e) ∧
    (∀ id id', once.1 = .ok id → twice.1 = .ok id' →
      once.2.nodes = g.nodes ∧ twice.2.nodes = g.nodes ∧
      ∃ pre old post, g.edges = pre ++ old :: post ∧ old.id = edge ∧
        once.2.edges = pre ++ c.toEdge id :: post ∧
        twice.2.edges = pre ++ post ++ [c.toEdge id'] ∧
        id ∉ g.ids ∧ id' ∉ g.nodes.map Node.id ++ (pre ++ post).map Edge.id) ∧
    ∀ e, once.1 = .error e → once.2 = g := by
  intro once twice
  cases hedge : g.edge? edge with
  | none =>
    have honce : once = (.error (.edgeNotFound edge), g) := by
      show (InPlace.reconnect edge c).on g = _
      rw [InPlace.reconnect_does]
      beta_reduce
      rw [PatchGraph.reconnect, hedge]
      rfl
    have htwice : twice = (.error (.edgeNotFound edge), g) := by
      show (InPlace.rewire edge c).on g = _
      rw [InPlace.on_rewire, PatchGraph.disconnect, hedge]
    rw [honce, htwice]
    refine ⟨Iff.rfl, fun e => Iff.rfl, ?_, fun e _ => rfl⟩
    rintro id id' ⟨⟩
  | some old =>
    have honce : once = _ := PatchGraph.on_reconnect_some hedge c
    have htwice : twice = _ := PatchGraph.on_rewire_some hedge wellFormed.edgeIds c
    rw [honce, htwice]
    cases g.allow c (·.id ≠ edge) with
    | error e =>
      refine ⟨by simp, fun e' => Iff.rfl, ?_, fun e' _ => rfl⟩
      rintro id id' ⟨⟩
    | ok =>
      refine ⟨by simp, by simp, ?_, by simp⟩
      rintro id id' ⟨⟩ ⟨⟩
      obtain ⟨pre, post, hedges, hid, hreplace, herase⟩ := PatchGraph.edge?_split hedge
      have hfresh := PatchGraph.freshId_not_mem (g.withEdges (pre ++ post)) "edge"
      rw [herase]
      exact ⟨rfl, rfl, pre, old, post, hedges, hid, hreplace _, rfl,
        PatchGraph.freshId_not_mem g "edge", hfresh⟩

/-- Two edges into the two sides of an output, one of them under the first id there is to give. -/
def paired : PatchGraph :=
  ⟨⟨[.new "n" "number", .new "out" "output"],
    [⟨"edge-1", "n", "signal", "out", "left"⟩, ⟨"b", "n", "signal", "out", "right"⟩]⟩, 0⟩

theorem wellFormed_paired : WellFormed paired.patch :=
  ⟨by decide, by decide, by decide, by decide⟩

def toLeft : Connection := ⟨"n", "signal", "out", "left"⟩

def toRight : Connection := ⟨"n", "signal", "out", "right"⟩

/-- An edge that is moved to where it is, and the same edge when it cannot be moved to where the
other one is. -/
theorem reconnect_rewire_paired :
    WellFormed paired.patch ∧
      ((InPlace.reconnect "edge-1" toLeft).on paired).1 = .ok "edge-2" ∧
      ((InPlace.rewire "edge-1" toLeft).on paired).1 = .ok "edge-1" ∧
      (∃ pre old post, paired.edges = pre ++ old :: post ∧ old.id = "edge-1" ∧
        ((InPlace.reconnect "edge-1" toLeft).on paired).2.edges =
          pre ++ toLeft.toEdge "edge-2" :: post ∧
        ((InPlace.rewire "edge-1" toLeft).on paired).2.edges =
          pre ++ post ++ [toLeft.toEdge "edge-1"]) ∧
      ((InPlace.rewire "edge-1" toRight).on paired).1 = .error (.inletOccupied "out" "right" "b") ∧
      ((InPlace.reconnect "edge-1" toRight).on paired).2 = paired := by
  obtain ⟨-, -, hmoved, -⟩ := reconnect_rewire paired wellFormed_paired "edge-1" toLeft
  obtain ⟨-, hsame, -, hstays⟩ := reconnect_rewire paired wellFormed_paired "edge-1" toRight
  have honce : ((InPlace.reconnect "edge-1" toLeft).on paired).1 = .ok "edge-2" := by decide
  have htwice : ((InPlace.rewire "edge-1" toLeft).on paired).1 = .ok "edge-1" := by decide
  have hrefused : ((InPlace.reconnect "edge-1" toRight).on paired).1 =
      .error (.inletOccupied "out" "right" "b") := by decide
  obtain ⟨-, -, pre, old, post, hedges, hold, hinplace, hbehind, -⟩ := hmoved _ _ honce htwice
  exact ⟨wellFormed_paired, honce, htwice, ⟨pre, old, post, hedges, hold, hinplace, hbehind⟩,
    (hsame _).1 hrefused, hstays _ hrefused⟩

end Patchbay
