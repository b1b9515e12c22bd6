import Patchbay.Compile.Instrument

/-!
# Compiling a patch

The nodes are compiled in evaluation order, each from the outlets of those before it. What is
heard are the outlets of the sink, with the instrumentation added to the left channel. Compiling
never fails: unknown types, failing nodes, cycles and dangling edges are counted and worked
around.
-/

set_option autoImplicit false

namespace Patchbay

structure CompileOptions where
  probeEdges : Bool
  orphanVisualizers : Bool
  deriving DecidableEq, Repr

namespace CompileOptions

def full : CompileOptions := ⟨true, true⟩

/-- The outlets of the sink as they are. -/
def bare : CompileOptions := ⟨false, false⟩

end CompileOptions

structure CompileStats where
  /-- Nodes that gave all their outlets. -/
  compiled : Nat
  /-- Nodes of an unknown type. -/
  skipped : Nat
  failed : Nat
  /-- Nodes without a place in the order. -/
  dropped : Nat
  orphans : Nat
  probes : Nat
  deriving DecidableEq, Repr

namespace CompileStats

def zero : CompileStats := ⟨0, 0, 0, 0, 0, 0⟩

end CompileStats

/-- The pair of channels handed to a renderer. -/
structure RenderTarget where
  left : Expr
  right : Expr

structure Compilation where
  sink : Option String
  target : Option RenderTarget
  stats : CompileStats

namespace Compile

def isSink (registry : Registry) (node : Node) : Bool :=
  match registry.find? node.type with
  | some t => t.info.category = .sink
  | none => false

/-- The first of the nodes with the smallest id. -/
def smallest? : List Node → Option Node
  | [] => none
  | n :: rest => some (rest.foldl (fun best m => if m.id < best.id then m else best) n)

def findSink? (registry : Registry) (nodes : List Node) : Option Node :=
  smallest? (nodes.filter (isSink registry))

/-- Every declared outlet has to be there. -/
def checkOutlets (info : NodeInfo) (outputs : Outputs) : Except CompileError Outputs :=
  match info.outlets.find? fun outlet => (outputs.find? outlet).isNone with
  | some outlet => .error (.missingOutlet info.id outlet)
  | none => .ok outputs

inductive Outcome where
  | skipped
  | failed (e : CompileError)
  | compiled (outlets : Outputs)

/-- One node from what is compiled before it. -/
def compileNode (registry : Registry) (edges : List Edge) (compiled : OutletMap) (node : Node)
    (copy : Nat) : Outcome :=
  match registry.find? node.type with
  | none => .skipped
  | some t =>
    let result := Build.within (.node node.id copy) do
      let inputs ← Resolve.inputs node t.info edges compiled
      (t.compile inputs node.id).run
    match result.bind (checkOutlets t.info) with
    | .ok outlets => .compiled outlets
    | .error e => .failed e

/-- What the nodes before a place have left behind. -/
structure Pass where
  outlets : OutletMap
  stats : CompileStats

/-- A failed node has no outlets; a skipped one leaves nothing behind. -/
def Pass.add (p : Pass) (node : Node) : Outcome → Pass
  | .skipped => { p with stats := { p.stats with skipped := p.stats.skipped + 1 } }
  | .failed _ =>
    ⟨p.outlets.insert node.id .empty, { p.stats with failed := p.stats.failed + 1 }⟩
  | .compiled outlets =>
    ⟨p.outlets.insert node.id outlets, { p.stats with compiled := p.stats.compiled + 1 }⟩

/-- How many nodes before a place have the id of the node there. -/
def copyAt (nodes : List Node) (i : Nat) (id : String) : Nat :=
  (nodes.take i).countP (·.id = id)

def compileAt (registry : Registry) (nodes : List Node) (edges : List Edge) (p : Pass) (i : Nat) :
    Pass :=
  match nodes[i]? with
  | some node =>
    p.add node (compileNode registry edges p.outlets node (copyAt nodes i node.id))
  | none => p

def compileAll (registry : Registry) (nodes : List Node) (edges : List Edge) (order : List Nat) :
    Pass :=
  order.foldl (compileAt registry nodes edges)
    ⟨.empty, { CompileStats.zero with dropped := nodes.length - order.length }⟩

/-- A channel of the sink; without an outlet it is a constant silence. -/
def channel (outlets : OutletMap) (sink name : String) : Build Expr :=
  match (outlets.find? sink).bind fun (o : Outputs) => o.find? name with
  | some signal => Build.liftKeyed (sink ++ ":" ++ name) signal
  | none => Build.keyedConst (sink ++ ":" ++ name ++ ":silence") 0.0

def channels (outlets : OutletMap) (sink : String) : RenderTarget :=
  Build.within .channel do
    let left ← channel outlets sink "left"
    let right ← channel outlets sink "right"
    return ⟨left, right⟩

def instrument (registry : Registry) (options : CompileOptions) (nodes : List Node)
    (edges : List Edge) (p : Pass) (bare : RenderTarget) : RenderTarget × CompileStats :=
  let orphans : Instrument.Injected :=
    if options.orphanVisualizers then
      Instrument.injectOrphans registry p.outlets [] (Instrument.orphans nodes edges registry)
        ⟨bare.left, 0⟩
    else ⟨bare.left, 0⟩
  let probes : Instrument.Injected :=
    if options.probeEdges then
      Instrument.injectProbes p.outlets [] edges ⟨orphans.channel, 0⟩
    else ⟨orphans.channel, 0⟩
  (⟨probes.channel, bare.right⟩, { p.stats with orphans := orphans.count, probes := probes.count })

def patch (registry : Registry) (options : CompileOptions) (nodes : List Node)
    (edges : List Edge) : Compilation :=
  match findSink? registry nodes with
  | none => ⟨none, none, .zero⟩
  | some sink =>
    let p := compileAll registry nodes edges (Order.topological nodes edges)
    let (target, stats) :=
      instrument registry options nodes edges p (channels p.outlets sink.id)
    ⟨some sink.id, some target, stats⟩

end Compile

end Patchbay
