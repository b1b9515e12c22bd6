import Mathlib
import Patchbay.Compile.Target
import Patchbay.NodeType.Builtin
import Patchbay.Proofs.Cycle

/-!
# Every node is accounted for

The queue algorithm once more, with every place looked up and every counter checked before it goes
down. No check fails, as a link that is still to be passed is counted in the degree of its target,
and the queue is empty in the end. So a compiled patch has dealt with each node exactly once: it
is compiled, skipped or failed in its turn, or dropped because a cycle keeps it from having one.
-/

set_option autoImplicit false

namespace Patchbay

namespace Order

/-! ## The checked queue -/

/-- What may stop a run that checks its steps. -/
inductive Fault where
  /-- A place that has no counter. -/
  | outOfRange
  /-- A counter at zero that is to go down. -/
  | underflow
  /-- Places that are queued after the last step. -/
  | unfinished
  deriving DecidableEq, Repr

namespace Checked

def count (degrees : Array Nat) (link : Nat × Nat) : Except Fault (Array Nat) :=
  match degrees[link.2]? with
  | none => .error .outOfRange
  | some degree => .ok (degrees.setIfInBounds link.2 (degree + 1))

def pass (s : State) (target : Nat) : Except Fault State :=
  match s.degrees[target]? with
  | none => .error .outOfRange
  | some 0 => .error .underflow
  | some (degree + 1) =>
    .ok ⟨s.degrees.setIfInBounds target degree,
      if degree = 0 then s.queue ++ [target] else s.queue⟩

def run (links : List (Nat × Nat)) : Nat → State → Except Fault (List Nat)
  | _, ⟨_, []⟩ => .ok []
  | 0, ⟨_, _ :: _⟩ => .error .unfinished
  | fuel + 1, ⟨degrees, i :: queue⟩ => do
    let s ← (targets links i).foldlM pass ⟨degrees, queue⟩
    let order ← run links fuel s
    return i :: order

def topological (nodes : List Node) (edges : List Edge) : Except Fault (List Nat) := do
  let ls := links nodes edges
  let degrees ← ls.foldlM count (.replicate nodes.length 0)
  run ls nodes.length ⟨degrees, (List.range nodes.length).filter fun i => degrees.getD i 0 = 0⟩

end Checked

variable {count : Nat} {links : List (Nat × Nat)} {done passing : List Nat}

theorem checked_count {degrees : Array Nat} {l : Nat × Nat} (h : l.2 < degrees.size) :
    Checked.count degrees l = .ok (degrees.modify l.2 (· + 1)) := by
  rw [Checked.count, Array.getElem?_eq_getElem h]
  simp [Array.modify, Array.modifyM, h, Array.setIfInBounds]

theorem checked_countAll {degrees : Array Nat} (h : ∀ l ∈ links, l.2 < degrees.size) :
    links.foldlM Checked.count degrees =
      .ok (links.foldl (fun d l => d.modify l.2 (· + 1)) degrees) := by
  induction links generalizing degrees with
  | nil => rfl
  | cons l links ih =>
    rw [List.foldlM_cons, checked_count (h l (by simp))]
    exact ih fun m hm => by simpa using h m (by simp [hm])

/-- The degree of a place counts the link that is passed, so it can go down. -/
theorem checked_pass {s : State} {i : Nat} (h : Stage count links done (i :: passing) s)
    (hi : i < count) : Checked.pass s i = .ok (pass s i) := by
  have hsize : i < s.degrees.size := by rw [h.size]; exact hi
  have hdeg : s.degrees[i] = waiting links done i + (passing.count i + 1) := by
    have := h.degree i hi
    rwa [List.count_cons_self, Array.getD_eq_getD_getElem?, Array.getElem?_eq_getElem hsize,
      Option.getD_some] at this
  have hget : s.degrees[i]? = some (waiting links done i + passing.count i + 1) := by
    rw [Array.getElem?_eq_getElem hsize, hdeg, Nat.add_assoc]
  simp [Checked.pass, pass, Array.getD_eq_getD_getElem?, hget]

theorem checked_passAll {s : State} (h : Stage count links done passing s)
    (hp : ∀ i ∈ passing, i < count) :
    passing.foldlM Checked.pass s = .ok (passing.foldl pass s) := by
  induction passing generalizing s with
  | nil => rfl
  | cons i passing ih =>
    rw [List.foldlM_cons, checked_pass h (hp i (by simp))]
    exact ih (pass_stage h (hp i (by simp))) fun j hj => hp j (by simp [hj])

theorem checked_run (hl : ∀ l ∈ links, l.2 < count) (fuel : Nat) (s : State)
    (h : Stage count links done [] s) (hf : done.length + fuel = count) :
    Checked.run links fuel s = .ok (run links fuel s) := by
  induction fuel generalizing done s with
  | zero =>
    obtain ⟨degrees, queue⟩ := s
    have hlen := length_le_of_stage h
    simp only at hlen
    obtain rfl : queue = [] := List.length_eq_zero_iff.1 (by omega)
    rfl
  | succ fuel ih =>
    obtain ⟨degrees, queue⟩ := s
    cases queue with
    | nil => rfl
    | cons i queue =>
      have hlt : ∀ j ∈ targets links i, j < count := fun j hj => target_lt hl hj
      have htake := take_stage h
      rw [Checked.run, checked_passAll htake hlt, run]
      have := ih _ (passAll_stage htake hlt) (by simp; omega)
      simp only [bind, Except.bind, this]
      rfl

theorem checked_topological (nodes : List Node) (edges : List Edge) :
    Checked.topological nodes edges = .ok (topological nodes edges) := by
  have hl := links_target_lt nodes edges
  rw [Checked.topological, checked_countAll (by simpa using hl)]
  exact checked_run hl nodes.length _ (start_stage hl) (by simp)

/-! ## The places of the order -/

/-- The node an id means: the first one that has it. -/
def Names (nodes : List Node) (id : String) (i : Nat) : Prop :=
  (∃ n, nodes[i]? = some n ∧ n.id = id) ∧ ∀ j < i, ∀ n, nodes[j]? = some n → n.id ≠ id

/-- An edge leads from one place to the other. -/
def Joined (nodes : List Node) (edges : List Edge) (i j : Nat) : Prop :=
  ∃ e ∈ edges, Names nodes e.source i ∧ Names nodes e.target j

theorem names_iff (nodes : List Node) (id : String) (i : Nat) :
    Names nodes id i ↔ indexOf? nodes id = some i := by
  rw [indexOf?, List.findIdx?_eq_some_iff_getElem]
  constructor
  · rintro ⟨⟨n, hn, rfl⟩, hbefore⟩
    obtain ⟨hi, rfl⟩ := List.getElem?_eq_some_iff.1 hn
    exact ⟨hi, by simp, fun j hj => by
      simpa using hbefore j hj _ (List.getElem?_eq_getElem (by omega))⟩
  · rintro ⟨hi, hid, hbefore⟩
    refine ⟨⟨nodes[i], List.getElem?_eq_getElem hi, of_decide_eq_true hid⟩, fun j hj n hn => ?_⟩
    obtain ⟨hj', rfl⟩ := List.getElem?_eq_some_iff.1 hn
    simpa using hbefore j hj

theorem linked_links (nodes : List Node) (edges : List Edge) :
    Linked (Order.links nodes edges) = Joined nodes edges := by
  funext i j
  simp only [Linked, mem_links, Joined, names_iff]

theorem Sorted.idxOf_lt {order : List Nat} (h : Sorted count links order) {i j : Nat}
    (hlink : (i, j) ∈ links) (hj : j ∈ order) : i ∈ order ∧ order.idxOf i < order.idxOf j := by
  obtain ⟨pre, post, rfl⟩ := List.append_of_mem hj
  have hi : i ∈ pre := h.forward pre post j rfl i hlink
  have hjpre : j ∉ pre := fun hmem => (List.nodup_append.1 h.nodup).2.2 j hmem j (by simp) rfl
  refine ⟨by simp [hi], ?_⟩
  rw [List.idxOf_append_of_mem hi, List.idxOf_append_of_notMem hjpre, List.idxOf_cons_self]
  have := List.idxOf_lt_length_iff.2 hi
  omega

end Order

/-! ## The count of the nodes -/

namespace CompileStats

/-- The nodes that have been dealt with. -/
def nodes (s : CompileStats) : Nat := s.compiled + s.skipped + s.failed + s.dropped

end CompileStats

namespace Compile

variable {registry : Registry} {nodes : List Node} {edges : List Edge}

theorem add_nodes (p : Pass) (n : Node) (o : Outcome) :
    (p.add n o).stats.nodes = p.stats.nodes + 1 := by
  cases o <;> simp only [Pass.add, CompileStats.nodes] <;> omega

theorem compileAt_nodes (p : Pass) {i : Nat} (hi : i < nodes.length) :
    (compileAt registry nodes edges p i).stats.nodes = p.stats.nodes + 1 := by
  rw [compileAt, List.getElem?_eq_getElem hi]
  exact add_nodes ..

theorem foldl_compileAt_nodes {order : List Nat} (p : Pass) (h : ∀ i ∈ order, i < nodes.length) :
    (order.foldl (compileAt registry nodes edges) p).stats.nodes =
      p.stats.nodes + order.length := by
  induction order generalizing p with
  | nil => rfl
  | cons i order ih =>
    rw [List.foldl_cons, ih _ fun j hj => h j (by simp [hj]), compileAt_nodes p (h i (by simp)),
      List.length_cons]
    omega

theorem compileAll_nodes {links : List (Nat × Nat)} {order : List Nat}
    (h : Order.Sorted nodes.length links order) :
    (compileAll registry nodes edges order).stats.nodes = nodes.length := by
  have hlt : ∀ i ∈ order, i < nodes.length := fun i hi => ((h.mem_iff i).1 hi).1
  have hle := h.length_le
  rw [compileAll, foldl_compileAt_nodes _ hlt]
  simp only [CompileStats.nodes, CompileStats.zero]
  omega

theorem patch_nodes (options : CompileOptions) {id : String}
    (h : (patch registry options nodes edges).sink = some id) :
    (patch registry options nodes edges).stats.nodes = nodes.length := by
  rw [patch] at h ⊢
  cases hs : findSink? registry nodes with
  | none => simp [hs] at h
  | some sink => exact compileAll_nodes (Order.topological_sorted nodes edges)

end Compile

namespace Order

open Relation

/-- Each place is taken at most once, behind the sources of all edges into it, and exactly the
places on a cycle or behind one are never taken. The counters never go below zero, and whoever
compiles the patch counts all of its nodes. -/
theorem topological_accounts (nodes : List Node) (edges : List Edge) :
    (topological nodes edges).Nodup ∧
    (∀ e ∈ edges, ∀ i j, Names nodes e.source i → Names nodes e.target j →
      j ∈ topological nodes edges → i ∈ topological nodes edges ∧
        (topological nodes edges).idxOf i < (topological nodes edges).idxOf j) ∧
    (∀ i, i ∈ topological nodes edges ↔ i < nodes.length ∧
      ¬∃ j, TransGen (Joined nodes edges) j j ∧ ReflTransGen (Joined nodes edges) j i) ∧
    Checked.topological nodes edges = .ok (topological nodes edges) ∧
    ∀ (registry : Registry) (options : CompileOptions) (id : String),
      (Compile.patch registry options nodes edges).sink = some id →
        let stats := (Compile.patch registry options nodes edges).stats
        stats.compiled + stats.skipped + stats.failed + stats.dropped = nodes.length := by
  have hsorted := topological_sorted nodes edges
  refine ⟨hsorted.nodup, fun e he i j hi hj hmem => ?_, fun i => ?_,
    checked_topological nodes edges, fun registry options id h => Compile.patch_nodes options h⟩
  · rw [names_iff] at hi hj
    exact hsorted.idxOf_lt ((mem_links nodes edges (i, j)).2 ⟨e, he, hi, hj⟩) hmem
  · rw [← linked_links]
    constructor
    · intro hmem
      have hi := ((hsorted.mem_iff i).1 hmem).1
      exact ⟨hi, fun hc => (not_mem_topological_iff nodes edges hi).2 hc hmem⟩
    · rintro ⟨hi, hc⟩
      by_contra hmem
      exact hc ((not_mem_topological_iff nodes edges hi).1 hmem)

/-- An id that occurs twice, two edges between the same nodes, an edge from nowhere, a loop and a
node behind it. -/
def tangledNodes : List Node :=
  [.new "out" "output", .new "a" "number", .new "a" "gain", .new "b" "gain", .new "c" "gain"]

def tangledEdges : List Edge :=
  [⟨"1", "a", "signal", "out", "left"⟩, ⟨"2", "a", "signal", "out", "right"⟩,
    ⟨"3", "nowhere", "signal", "out", "left"⟩, ⟨"4", "b", "signal", "b", "input"⟩,
    ⟨"5", "b", "signal", "c", "input"⟩]

theorem topological_accounts_tangled :
    topological tangledNodes tangledEdges = [1, 2, 0] ∧
    ([1, 2, 0].idxOf 1 < [1, 2, 0].idxOf 0) ∧
    (∃ j, TransGen (Joined tangledNodes tangledEdges) j j ∧
      ReflTransGen (Joined tangledNodes tangledEdges) j 4) ∧
    (Compile.patch .builtin .bare tangledNodes tangledEdges).sink = some "out" ∧
    let stats := (Compile.patch .builtin .bare tangledNodes tangledEdges).stats
    stats.compiled + stats.skipped + stats.failed + stats.dropped = 5 := by
  have horder : topological tangledNodes tangledEdges = [1, 2, 0] := by decide
  have hsink : (Compile.patch .builtin .bare tangledNodes tangledEdges).sink = some "out" := rfl
  obtain ⟨-, hforward, hmem, -, hcount⟩ := topological_accounts tangledNodes tangledEdges
  rw [horder] at hforward hmem
  have hbefore := hforward ⟨"1", "a", "signal", "out", "left"⟩ (by simp [tangledEdges]) 1 0
    ((names_iff ..).2 (by decide)) ((names_iff ..).2 (by decide)) (by simp)
  have hcyclic := (hmem 4).not.1 (by decide)
  exact ⟨horder, hbefore.2, by_contra fun h => hcyclic ⟨by decide, h⟩, hsink,
    hcount .builtin .bare "out" hsink⟩

end Order

end Patchbay
