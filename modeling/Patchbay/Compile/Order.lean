import Patchbay.Document.Patch

/-!
# Evaluation order

The nodes of a patch in an order in which every edge leads forwards. A node is queued once all
edges into it have been passed, so nodes on a cycle and those behind one are left out. An id that
several nodes share means the first of them; edges from or to an unknown node do not count.
-/

set_option autoImplicit false

namespace Patchbay

namespace Order

def indexOf? (nodes : List Node) (id : String) : Option Nat := nodes.findIdx? (·.id = id)

/-- The edges between known nodes as pairs of places in the node list. -/
def links (nodes : List Node) (edges : List Edge) : List (Nat × Nat) :=
  edges.filterMap fun e => do
    let source ← indexOf? nodes e.source
    let target ← indexOf? nodes e.target
    return (source, target)

/-- The number of links into each place. -/
def inDegrees (count : Nat) (links : List (Nat × Nat)) : Array Nat :=
  links.foldl (fun d link => d.modify link.2 (· + 1)) (Array.replicate count 0)

def targets (links : List (Nat × Nat)) (i : Nat) : List Nat :=
  (links.filter (·.1 = i)).map Prod.snd

structure State where
  degrees : Array Nat
  queue : List Nat

/-- Passes one link. Its target is queued if this was the last one into it. -/
def pass (s : State) (target : Nat) : State :=
  let degree := s.degrees.getD target 0 - 1
  ⟨s.degrees.setIfInBounds target degree, if degree = 0 then s.queue ++ [target] else s.queue⟩

/-- Takes the places from the front of the queue and passes the links that leave them. -/
def run (links : List (Nat × Nat)) : Nat → State → List Nat
  | 0, _ => []
  | fuel + 1, s =>
    match s.queue with
    | [] => []
    | i :: queue => i :: run links fuel ((targets links i).foldl pass ⟨s.degrees, queue⟩)

def start (count : Nat) (links : List (Nat × Nat)) : State :=
  let degrees := inDegrees count links
  ⟨degrees, (List.range count).filter fun i => degrees.getD i 0 = 0⟩

/-- Places in the node list, sources before targets. No place is queued twice, so as many steps
as there are nodes empty the queue. -/
def topological (nodes : List Node) (edges : List Edge) : List Nat :=
  let ls := links nodes edges
  run ls nodes.length (start nodes.length ls)

def sortedNodes (nodes : List Node) (edges : List Edge) : List Node :=
  (topological nodes edges).filterMap (nodes[·]?)

end Order

end Patchbay
