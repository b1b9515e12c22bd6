import Patchbay.Document.Data

/-!
# Patch documents

A patch is a flat list of placed nodes and of the edges that connect an outlet of one node with an
inlet of another. Nothing is checked here: ids may repeat and edges may dangle.
-/

set_option autoImplicit false

namespace Patchbay

/-- A place on the canvas. It has no bearing on sound. -/
structure Position where
  x : Float
  y : Float

structure Node where
  id : String
  type : String
  position : Option Position
  data : NodeData

structure Edge where
  id : String
  source : String
  sourceHandle : String
  target : String
  targetHandle : String
  deriving DecidableEq, Repr

structure Patch where
  nodes : List Node
  edges : List Edge

namespace Position

def same (p q : Position) : Bool := p.x == q.x && p.y == q.y

end Position

namespace Node

/-- A node without data. -/
def new (id type : String) : Node := ⟨id, type, none, .empty⟩

/-- Sets one data entry. -/
def set (n : Node) (key : String) (value : Param) : Node :=
  { n with data := n.data.insert key value }

def moveTo (n : Node) (p : Position) : Node := { n with position := some p }

def same (n m : Node) : Bool :=
  n.id == m.id && n.type == m.type && NodeData.same n.data m.data &&
  match n.position, m.position with
  | none, none => true
  | some p, some q => p.same q
  | _, _ => false

end Node

namespace Edge

/-- Whether the edge feeds an inlet of a node. -/
def feeds (e : Edge) (node inlet : String) : Bool := e.target = node && e.targetHandle = inlet

/-- Whether one of the ends is a node. -/
def touches (e : Edge) (node : String) : Bool := e.source = node || e.target = node

end Edge

namespace Patch

def empty : Patch := ⟨[], []⟩

def findNode? (p : Patch) (id : String) : Option Node := p.nodes.find? (·.id = id)

def findEdge? (p : Patch) (id : String) : Option Edge := p.edges.find? (·.id = id)

def sameNodes : List Node → List Node → Bool
  | [], [] => true
  | n :: ns, m :: ms => n.same m && sameNodes ns ms
  | _, _ => false

def same (p q : Patch) : Bool := sameNodes p.nodes q.nodes && p.edges == q.edges

end Patch

end Patchbay
