import Patchbay.Document.Data
import Patchbay.Expr.Build

/-!
# Node types

A node type declares its inlets with their defaults, its outlets and its settings, and says how
the outlets follow from what flows into the inlets. The compiler knows nothing else about it. Two
categories matter to the compiler: the sink is what is listened to, and visualizers are kept even
if nothing consumes them.
-/

set_option autoImplicit false

namespace Patchbay

inductive Category where
  | source
  | control
  | processor
  | utility
  | visualizer
  | sink
  deriving DecidableEq, Repr

namespace Category

/-- In the order in which they are shown. -/
def all : List Category := [source, control, processor, utility, visualizer, sink]

def name : Category → String
  | source => "Source"
  | control => "Control"
  | processor => "Processor"
  | utility => "Utility"
  | visualizer => "Visualizer"
  | sink => "Sink"

def description : Category → String
  | source => "Oscillators, noise, and other signal generators"
  | control => "Numbers, clocks, sequencers, envelopes, and keyboards"
  | processor => "Gain, filtering, delay, and mixing"
  | utility => "Arithmetic, comparisons, and unit conversions"
  | visualizer => "Scopes, spectra, and meters"
  | sink => "Stereo output to the audio engine"

/-- By name, the case of ASCII letters aside. -/
def ofName? (name : String) : Option Category :=
  all.find? fun c => c.name.toLower = name.toLower

end Category

structure Inlet where
  name : String
  default : Float32

/-- The shape of a setting and the value that stands in for a missing or unusable one. -/
inductive SettingKind where
  | choice (options : List String) (default : String)
  | number (default : Float32)

/-- A declared entry of node data that is not an inlet. -/
structure Setting where
  name : String
  kind : SettingKind

namespace Setting

def defaultValue (s : Setting) : Param :=
  match s.kind with
  | .choice _ default => .text default
  | .number default => .ofSingle default

end Setting

structure NodeInfo where
  id : String
  name : String
  description : String
  category : Category
  inlets : List Inlet
  outlets : List String
  settings : List Setting

namespace NodeInfo

def inlet? (i : NodeInfo) (name : String) : Option Inlet := i.inlets.find? (·.name = name)

def hasOutlet (i : NodeInfo) (name : String) : Bool := i.outlets.contains name

/-- Every default, spelled out as node data. -/
def defaultData (i : NodeInfo) : NodeData :=
  .ofList (i.inlets.map (fun inlet => (inlet.name, .ofSingle inlet.default))
    ++ i.settings.map fun s => (s.name, s.defaultValue))

end NodeInfo

inductive CompileError where
  | missingInlet (name : String)
  | missingOutlet (nodeType outlet : String)
  | invalidParam (name reason : String)
  deriving DecidableEq, Repr

namespace CompileError

def message : CompileError → String
  | missingInlet name => "inlet `" ++ name ++ "` was not resolved"
  | missingOutlet nodeType outlet =>
    "descriptor for `" ++ nodeType ++ "` did not produce declared outlet `" ++ outlet ++ "`"
  | invalidParam name reason => "invalid parameter `" ++ name ++ "`: " ++ reason

end CompileError

/-- What a node sees: a signal for each of its inlets and its settings as they stand in the
document. -/
structure Inputs where
  signals : Table Signal
  params : NodeData

abbrev Outputs := Table Signal

abbrev NodeBuild := ExceptT CompileError Build

namespace Inputs

def empty : Inputs := ⟨.empty, .empty⟩

def signal (i : Inputs) (name : String) : Except CompileError Signal :=
  match i.signals.find? name with
  | some s => .ok s
  | none => .error (.missingInlet name)

def get (i : Inputs) (name : String) : NodeBuild Signal := fun l => (i.signal name, l)

/-- An inlet as an expression. A literal becomes a constant under the key of node and inlet. -/
def keyed (i : Inputs) (name id : String) : NodeBuild Expr := do
  Build.liftKeyed (id ++ ":" ++ name) (← i.get name)

def numberOr (i : Inputs) (name : String) (default : Float32) : Float32 :=
  ((i.params.find? name).bind Param.number?).getD default

def text? (i : Inputs) (name : String) : Option String := (i.params.find? name).bind Param.text?

/-- A choice; the default stands in for a missing or unknown name. -/
def choice {α : Type} (i : Inputs) (name : String) (parse : String → Option α) (default : α) : α :=
  ((i.text? name).bind parse).getD default

end Inputs

namespace Outputs

def ofExpr (e : Expr) : Outputs := Table.empty.insert "signal" (.expr e)

end Outputs

structure NodeType where
  info : NodeInfo
  compile : Inputs → String → NodeBuild Outputs

namespace NodeType

/-- A constant zero that tells what is missing. -/
def silence (id : String) : Build Expr := Build.keyedConst (id ++ ":silence") 0.0

/-- A node that processes one input. Without a connection it is silent, whatever number stands
in the place of the input. -/
def withInput (inputs : Inputs) (id : String) (process : Expr → NodeBuild Expr) :
    NodeBuild Outputs := do
  match ← inputs.get "input" with
  | .literal _ => return .ofExpr (← silence id)
  | .expr input => return .ofExpr (← process input)

end NodeType

structure Registry where
  types : List NodeType

namespace Registry

def empty : Registry := ⟨[]⟩

def find? (r : Registry) (id : String) : Option NodeType := r.types.find? (·.info.id = id)

/-- Adds a node type at the end; an older one with its id goes. -/
def register (r : Registry) (t : NodeType) : Registry :=
  ⟨r.types.filter (·.info.id ≠ t.info.id) ++ [t]⟩

def ids (r : Registry) : List String := r.types.map (·.info.id)

def infos (r : Registry) : List NodeInfo := r.types.map (·.info)

def inCategory (r : Registry) (c : Category) : List NodeInfo :=
  r.infos.filter (·.category = c)

end Registry

end Patchbay
