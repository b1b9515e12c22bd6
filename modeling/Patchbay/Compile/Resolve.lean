import Patchbay.Compile.Order
import Patchbay.NodeType.Basic

/-!
# What flows into a node

An inlet takes its signal from the first edge that leads to it, if that edge comes from an outlet
that exists; otherwise from a number in the data of the node under its name; otherwise from its
default. All other data entries are settings.
-/

set_option autoImplicit false

namespace Patchbay

/-- The outlets of the nodes compiled so far, by node id. -/
abbrev OutletMap := Table Outputs

namespace Resolve

/-- The outlet that an edge comes from. -/
def sourceOf (compiled : OutletMap) (e : Edge) : Option Signal :=
  (compiled.find? e.source).bind fun (outlets : Outputs) => outlets.find? e.sourceHandle

/-- What an edge delivers is always an expression: a bare number becomes a constant under the
key of the edge. -/
def deliver (edge : String) : Signal → Build Signal
  | .expr e => return .expr e
  | .literal v => return .expr (← Build.keyedConst (edge ++ ":lift") v)

/-- The number that stands for an inlet without a connection. -/
def literalOf (node : Node) (inlet : Inlet) : Float32 :=
  ((node.data.find? inlet.name).bind Param.number?).getD inlet.default

/-- The connection of an inlet: its first edge, and what that edge comes from. -/
def connection? (edges : List Edge) (compiled : OutletMap) (node : Node) (inlet : Inlet) :
    Option (Edge × Signal) := do
  let edge ← edges.find? (·.feeds node.id inlet.name)
  let signal ← sourceOf compiled edge
  return (edge, signal)

def inletSignal (edges : List Edge) (compiled : OutletMap) (node : Node) (inlet : Inlet) :
    Build Signal :=
  match connection? edges compiled node inlet with
  | some (edge, signal) => deliver edge.id signal
  | none => return .literal (literalOf node inlet)

def settings (node : Node) (info : NodeInfo) : NodeData :=
  node.data.filter fun key => (info.inlet? key).isNone

/-- The signals of a list of inlets, each put under its name. -/
def inletSignals (edges : List Edge) (compiled : OutletMap) (node : Node) :
    List Inlet → Build (List (String × Signal))
  | [] => return []
  | inlet :: rest => do
    let s ← inletSignal edges compiled node inlet
    let ss ← inletSignals edges compiled node rest
    return (inlet.name, s) :: ss

def inputs (node : Node) (info : NodeInfo) (edges : List Edge) (compiled : OutletMap) :
    Build Inputs := do
  return ⟨.ofList (← inletSignals edges compiled node info.inlets), settings node info⟩

end Resolve

end Patchbay
