import Patchbay.Compile.Target

/-!
# Editing a patch

A graph owns a patch document and keeps the one rule that compiling does not ask for: an inlet
takes at most one connection. An edit that fails changes nothing. New ids count upwards and an id
is never given out twice.
-/

set_option autoImplicit false

namespace Patchbay

inductive GraphError where
  | nodeNotFound (id : String)
  | edgeNotFound (id : String)
  | unknownNodeType (type : String)
  | duplicateNode (id : String)
  | inletOccupied (node inlet existing : String)
  deriving DecidableEq, Repr

namespace GraphError

def message : GraphError → String
  | nodeNotFound id => "node `" ++ id ++ "` not found"
  | edgeNotFound id => "edge `" ++ id ++ "` not found"
  | unknownNodeType type => "unknown node type `" ++ type ++ "`"
  | duplicateNode id => "node `" ++ id ++ "` already exists"
  | inletOccupied node inlet existing =>
    "inlet `" ++ inlet ++ "` of `" ++ node ++ "` is already connected by edge `" ++ existing
      ++ "`"

end GraphError

/-- The two ends of an edge. -/
structure Connection where
  source : String
  sourceHandle : String
  target : String
  targetHandle : String
  deriving DecidableEq, Repr

namespace Connection

def toEdge (c : Connection) (id : String) : Edge :=
  ⟨id, c.source, c.sourceHandle, c.target, c.targetHandle⟩

end Connection

structure PatchGraph where
  patch : Patch
  /-- The number in the latest id given out. -/
  lastId : Nat

namespace PatchGraph

def empty : PatchGraph := ⟨.empty, 0⟩

def defaultOutputId : String := "output-default"

/-- A canvas on which the first connection can be heard. -/
def withDefaultOutput : PatchGraph :=
  ⟨⟨[(Node.new defaultOutputId "output").moveTo ⟨400.0, 200.0⟩], []⟩, 0⟩

/-- A document as it is, doubled connections included. -/
def ofPatch (p : Patch) : PatchGraph := ⟨p, 0⟩

/-- Replaces the document; ids go on counting. -/
def load (g : PatchGraph) (p : Patch) : PatchGraph := { g with patch := p }

def nodes (g : PatchGraph) : List Node := g.patch.nodes

def edges (g : PatchGraph) : List Edge := g.patch.edges

def withNodes (g : PatchGraph) (nodes : List Node) : PatchGraph :=
  { g with patch := { g.patch with nodes := nodes } }

def withEdges (g : PatchGraph) (edges : List Edge) : PatchGraph :=
  { g with patch := { g.patch with edges := edges } }

def node? (g : PatchGraph) (id : String) : Option Node := g.patch.findNode? id

def edge? (g : PatchGraph) (id : String) : Option Edge := g.patch.findEdge? id

/-- The edge that feeds an inlet. -/
def connectionTo? (g : PatchGraph) (node inlet : String) : Option Edge :=
  g.edges.find? (·.feeds node inlet)

def idAt (stem : String) (n : Nat) : String := stem ++ "-" ++ digitText n

def isTaken (g : PatchGraph) (id : String) : Bool :=
  g.nodes.any (·.id = id) || g.edges.any (·.id = id)

/-- The first number above `n` whose id is free, looking at `fuel` of them. -/
def freeNumber (g : PatchGraph) (stem : String) : Nat → Nat → Nat
  | 0, n => n + 1
  | fuel + 1, n =>
    if g.isTaken (idAt stem (n + 1)) then freeNumber g stem fuel (n + 1) else n + 1

/-- A new id and the graph that has counted it. Among one more number than there are ids, one is
free. -/
def freshId (g : PatchGraph) (stem : String) : String × PatchGraph :=
  let n := freeNumber g stem (g.nodes.length + g.edges.length) g.lastId
  (idAt stem n, { g with lastId := n })

/-- The outcome of an edit: what it answers and the graph after it. -/
abbrev Edit (α : Type) := Except GraphError (α × PatchGraph)

/-- Places a node with all its defaults spelled out. -/
def addNode (g : PatchGraph) (registry : Registry) (type : String) (position : Option Position) :
    Edit String :=
  match registry.find? type with
  | none => .error (.unknownNodeType type)
  | some t =>
    let (id, g) := g.freshId type
    .ok (id, g.withNodes (g.nodes ++ [⟨id, type, position, t.info.defaultData⟩]))

def insertNode (g : PatchGraph) (node : Node) : Edit Unit :=
  match g.node? node.id with
  | some _ => .error (.duplicateNode node.id)
  | none => .ok ((), g.withNodes (g.nodes ++ [node]))

/-- Removes the first node of an id and every edge that touches the id. -/
def removeNode (g : PatchGraph) (id : String) : Edit Node :=
  match g.node? id with
  | none => .error (.nodeNotFound id)
  | some node =>
    .ok (node,
      (g.withNodes (g.nodes.eraseP (·.id = id))).withEdges (g.edges.filter (!·.touches id)))

/-- Changes the first node of an id. -/
def updateFirst (id : String) (f : Node → Node) : List Node → List Node
  | [] => []
  | n :: rest => if n.id = id then f n :: rest else n :: updateFirst id f rest

def updateNode (g : PatchGraph) (id : String) (f : Node → Node) : Edit Unit :=
  match g.node? id with
  | none => .error (.nodeNotFound id)
  | some _ => .ok ((), g.withNodes (updateFirst id f g.nodes))

def setParam (g : PatchGraph) (id key : String) (value : Param) : Edit Unit :=
  g.updateNode id fun n => n.set key value

def setPosition (g : PatchGraph) (id : String) (p : Position) : Edit Unit :=
  g.updateNode id fun n => n.moveTo p

def checkNode (g : PatchGraph) (id : String) : Except GraphError Unit :=
  match g.node? id with
  | some _ => .ok ()
  | none => .error (.nodeNotFound id)

/-- Whether an inlet is free; edges that do not count are left out by `counts`. -/
def checkFree (g : PatchGraph) (c : Connection) (counts : Edge → Bool) :
    Except GraphError Unit :=
  match g.edges.find? fun e => counts e && e.feeds c.target c.targetHandle with
  | some e => .error (.inletOccupied c.target c.targetHandle e.id)
  | none => .ok ()

def connect (g : PatchGraph) (c : Connection) : Except GraphError (String × PatchGraph) := do
  g.checkNode c.source
  g.checkNode c.target
  g.checkFree c fun _ => true
  let (id, g) := g.freshId "edge"
  return (id, g.withEdges (g.edges ++ [c.toEdge id]))

def replaceFirst (id : String) (edge : Edge) : List Edge → List Edge
  | [] => []
  | e :: rest => if e.id = id then edge :: rest else e :: replaceFirst id edge rest

/-- Moves an edge to other ends. It gets a new id and keeps its place; its old connection does
not stand in its way. -/
def reconnect (g : PatchGraph) (edge : String) (c : Connection) :
    Except GraphError (String × PatchGraph) := do
  match g.edge? edge with
  | none => throw (.edgeNotFound edge)
  | some _ =>
    g.checkNode c.source
    g.checkNode c.target
    g.checkFree c (·.id ≠ edge)
    let (id, g) := g.freshId "edge"
    return (id, g.withEdges (replaceFirst edge (c.toEdge id) g.edges))

def disconnect (g : PatchGraph) (id : String) : Edit Edge :=
  match g.edge? id with
  | none => .error (.edgeNotFound id)
  | some e => .ok (e, g.withEdges (g.edges.eraseP (·.id = id)))

def compile (g : PatchGraph) (registry : Registry) (options : CompileOptions) :
    Option RenderTarget :=
  (Compile.patch registry options g.nodes g.edges).target

end PatchGraph

end Patchbay
