import Patchbay.NodeType.Basic
import Patchbay.Preset.Basic

/-!
# Checking a patch

Compiling works around whatever is wrong with a patch. A check lists it instead: first what is
wrong with each node, then a missing sink, then what is wrong with each edge.
-/

set_option autoImplicit false

namespace Patchbay

inductive Problem where
  | unknownNodeType (type : String)
  | duplicateNode (id : String)
  | duplicateEdge (id : String)
  | danglingEdge (edge node : String)
  | unknownOutlet (edge type outlet : String)
  | unknownInlet (edge type inlet : String)
  /-- Of several edges into an inlet only the first counts. -/
  | inletFedTwice (node inlet first ignored : String)
  | missingSink
  | invalidChoice (node setting value options : String)
  | notANumber (node name : String)
  deriving DecidableEq, Repr

namespace Problem

def quoted (s : String) : String := "'" ++ s ++ "'"

def message : Problem → String
  | unknownNodeType type => "unknown node type: " ++ type
  | duplicateNode id => "duplicate node id " ++ quoted id
  | duplicateEdge id => "duplicate edge id " ++ quoted id
  | danglingEdge edge node => "edge " ++ quoted edge ++ " references missing node " ++ quoted node
  | unknownOutlet edge type outlet =>
    "edge " ++ quoted edge ++ ": " ++ quoted type ++ " has no outlet " ++ quoted outlet
  | unknownInlet edge type inlet =>
    "edge " ++ quoted edge ++ ": " ++ quoted type ++ " has no inlet " ++ quoted inlet
  | inletFedTwice node inlet first ignored =>
    "inlet " ++ quoted inlet ++ " of " ++ quoted node ++ " is fed by " ++ quoted first ++ " and "
      ++ quoted ignored ++ "; " ++ quoted ignored ++ " is ignored"
  | missingSink => "patch has no output node"
  | invalidChoice node setting value options =>
    "node " ++ quoted node ++ ": " ++ quoted value ++ " is not a valid " ++ setting
      ++ " (expected one of: " ++ options ++ ")"
  | notANumber node name => "node " ++ quoted node ++ ": " ++ quoted name ++ " must be a number"

/-- One message for a list of problems; there is none for an empty list. -/
def summary? : List Problem → Option String
  | [] => none
  | [p] => some p.message
  | ps => some ("multiple validation errors: " ++ "; ".intercalate (ps.map message))

end Problem

namespace Check

def nodeType (registry : Registry) (type : String) : List Problem :=
  match registry.find? type with
  | some _ => []
  | none => [.unknownNodeType type]

/-- Text as it stands, other values with the name of their kind. -/
def shownValue (p : Param) : String := p.text?.getD p.tagged

def inlet (node : Node) (i : Inlet) : List Problem :=
  match node.data.find? i.name with
  | some v => if v.isNumeric then [] else [.notANumber node.id i.name]
  | none => []

def setting (node : Node) (s : Setting) : List Problem :=
  match node.data.find? s.name, s.kind with
  | none, _ => []
  | some v, .number _ => if v.isNumeric then [] else [.notANumber node.id s.name]
  | some v, .choice options _ =>
    if v.text?.any options.contains then []
    else [.invalidChoice node.id s.name (shownValue v) (", ".intercalate options)]

/-- A node by itself. Data entries that its type does not declare are left alone. -/
def node (registry : Registry) (n : Node) : List Problem :=
  match registry.find? n.type with
  | none => [.unknownNodeType n.type]
  | some t => t.info.inlets.flatMap (inlet n) ++ t.info.settings.flatMap (setting n)

/-- The nodes after those met before; every repetition of an id counts. -/
def nodes (registry : Registry) (met : List String) : List Node → List Problem
  | [] => []
  | n :: rest =>
    (if met.contains n.id then [.duplicateNode n.id] else []) ++ node registry n
      ++ nodes registry (n.id :: met) rest

def hasSink (registry : Registry) (ns : List Node) : Bool :=
  ns.any fun n =>
    match registry.find? n.type with
    | some t => t.info.category = .sink
    | none => false

/-- The node at one end of an edge; of several with one id it is the last. -/
def endpoint? (ns : List Node) (id : String) : Option Node := ns.reverse.find? (·.id = id)

/-- One end of an edge. `lacks` says whether a node type misses the handle. -/
def endpoint (registry : Registry) (ns : List Node) (e : Edge) (id : String)
    (lacks : NodeInfo → Bool) (missing : String → Problem) : List Problem :=
  match endpoint? ns id with
  | none => [.danglingEdge e.id id]
  | some n =>
    match registry.find? n.type with
    | some t => if lacks t.info then [missing n.type] else []
    | none => []

def edge (registry : Registry) (ns : List Node) (e : Edge) : List Problem :=
  endpoint registry ns e e.source (fun i => !i.hasOutlet e.sourceHandle)
      (.unknownOutlet e.id · e.sourceHandle)
    ++ endpoint registry ns e e.target (fun i => (i.inlet? e.targetHandle).isNone)
      (.unknownInlet e.id · e.targetHandle)

/-- An earlier edge into the same inlet; the first of them is named. -/
def fedBefore (met : List Edge) (e : Edge) : List Problem :=
  match met.find? (·.feeds e.target e.targetHandle) with
  | some first => [.inletFedTwice e.target e.targetHandle first.id e.id]
  | none => []

def edges (registry : Registry) (ns : List Node) (met : List Edge) : List Edge → List Problem
  | [] => []
  | e :: rest =>
    (if met.any (·.id = e.id) then [.duplicateEdge e.id] else []) ++ edge registry ns e
      ++ fedBefore met e ++ edges registry ns (met ++ [e]) rest

def patch (registry : Registry) (p : Patch) : List Problem :=
  nodes registry [] p.nodes
    ++ (if hasSink registry p.nodes then [] else [.missingSink])
    ++ edges registry p.nodes [] p.edges

def preset (registry : Registry) (p : Preset) : List Problem := patch registry p.patch

end Check

end Patchbay
