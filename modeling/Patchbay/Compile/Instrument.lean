import Patchbay.Compile.Resolve

/-!
# Instrumentation

Taps report only where a renderer evaluates them. Two kinds of taps would otherwise stay dark:
visualizers whose output goes nowhere, and the meters and scopes shown on edges. Both are added to
the left channel with a weight of zero.
-/

set_option autoImplicit false

namespace Patchbay

namespace Instrument

/-- The window of the scopes on edges, in samples. -/
def edgeScopeSize : Nat := 512

/-- A signal with no weight; an exact zero silences whatever it is multiplied with. -/
def zeroGain (key : String) (signal : Expr) : Build Expr := do
  let zero ← Build.keyedConst key 0.0
  Build.binary .mul (.expr zero) (.expr signal)

/-- Meter and scope of an edge. -/
def edgeProbe (edge : String) (signal : Expr) : Build Expr := do
  let metered ← Build.meter (edge ++ ":meter") (.expr signal)
  let window ← Build.scope (edge ++ ":scope") edgeScopeSize (.expr metered)
  zeroGain (edge ++ ":z") window

def isVisualizer (registry : Registry) (node : Node) : Bool :=
  match registry.find? node.type with
  | some t => t.info.category = .visualizer
  | none => false

/-- Visualizers that something flows into and nothing out of, by id. -/
def orphans (nodes : List Node) (edges : List Edge) (registry : Registry) : List Node :=
  (nodes.filter fun n =>
    isVisualizer registry n && edges.any (·.target = n.id) && !edges.any (·.source = n.id)).mergeSort
      fun a b => !(b.id < a.id)

/-- The first outlet of a node, as far as it is an expression. -/
def firstOutlet? (registry : Registry) (compiled : OutletMap) (node : Node) : Option Expr := do
  let t ← registry.find? node.type
  let outlet ← t.info.outlets.head?
  let outlets ← compiled.find? node.id
  let signal ← Table.find? outlets outlet
  signal.expr?

/-- A channel with further terms added to it, and their number. -/
structure Injected where
  channel : Expr
  count : Nat

/-- How many of the given ids stand before each place. -/
def copyOf (earlier : List String) (id : String) : Nat := earlier.count id

def addTerm (scope : Scope) (left : Expr) (term : Build Expr) : Expr :=
  Build.within scope do
    let term ← term
    Build.binary .add (.expr left) (.expr term)

def injectOrphans (registry : Registry) (compiled : OutletMap) :
    List String → List Node → Injected → Injected
  | _, [], left => left
  | earlier, n :: rest, left =>
    injectOrphans registry compiled (n.id :: earlier) rest <|
      match firstOutlet? registry compiled n with
      | some signal =>
        ⟨addTerm (.orphan n.id (copyOf earlier n.id)) left.channel
          (zeroGain (n.id ++ ":zero") signal), left.count + 1⟩
      | none => left

def injectProbes (compiled : OutletMap) : List String → List Edge → Injected → Injected
  | _, [], left => left
  | earlier, e :: rest, left =>
    injectProbes compiled (e.id :: earlier) rest <|
      match (Resolve.sourceOf compiled e).bind Signal.expr? with
      | some signal =>
        ⟨addTerm (.probe e.id (copyOf earlier e.id)) left.channel (edgeProbe e.id signal),
          left.count + 1⟩
      | none => left

end Instrument

end Patchbay
