import Patchbay.NodeType.Basic

/-!
# Control values, clocks, sequencers and envelopes
-/

set_option autoImplicit false

namespace Patchbay

namespace NodeType

/-- An inlet metered under the id of the node. -/
def meteredInlet (inlet : String) (inputs : Inputs) (id : String) : NodeBuild Outputs := do
  let value ← inputs.keyed inlet id
  return .ofExpr (← Build.meter id (.expr value))

def number : NodeType where
  info := {
    id := "number"
    name := "Number"
    description := "Constant value with a live readout"
    category := .control
    inlets := [⟨"value", 0.0⟩]
    outlets := ["signal"]
    settings := [] }
  compile := meteredInlet "value"

def bang : NodeType where
  info := {
    id := "bang"
    name := "Bang"
    description := "Momentary trigger button"
    category := .control
    inlets := [⟨"gate", 0.0⟩]
    outlets := ["signal"]
    settings := [] }
  compile := meteredInlet "gate"

/-- The held note and its gate as constants that can be set. -/
def keyboard : NodeType where
  info := {
    id := "keyboard"
    name := "Keyboard"
    description := "MIDI note and gate from the on-screen keys"
    category := .control
    inlets := []
    outlets := ["note", "gate"]
    settings := [⟨"currentNote", .number 60.0⟩, ⟨"currentGate", .number 0.0⟩] }
  compile := fun inputs id => do
    let note ← Build.keyedConst (id ++ ":note") (inputs.numberOr "currentNote" 60.0)
    let gate ← Build.keyedConst (id ++ ":gate") (inputs.numberOr "currentGate" 0.0)
    return (Table.empty.insert "note" (.expr note)).insert "gate" (.expr gate)

/-- The pulses per second of a tempo that never goes backwards. -/
def beatRate (bpm : Float32) : Float32 :=
  if bpm.isFinite then Single.max bpm 0.0 / 60.0 else 0.0

/-- The pulses per second of a tempo; a number is converted at once. -/
def pulseRate (id : String) : Signal → Build Expr
  | .literal bpm => Build.keyedConst (id ++ ":rate") (beatRate bpm)
  | .expr bpm => Build.binary .div (.expr bpm) (.literal 60.0)

def metro : NodeType where
  info := {
    id := "metro"
    name := "Metro"
    description := "Tempo clock emitting one pulse per beat"
    category := .control
    inlets := [⟨"bpm", 120.0⟩]
    outlets := ["signal"]
    settings := [] }
  compile := fun inputs id => do
    let rate ← pulseRate id (← inputs.get "bpm")
    let pulses ← Build.oscillator .gate (.expr rate)
    return .ofExpr (← Build.meter id (.expr pulses))

/-- The settings of the eight steps. -/
def stepDefaults : List (String × Float32) :=
  [("step0", 60.0), ("step1", 64.0), ("step2", 67.0), ("step3", 72.0), ("step4", 67.0),
    ("step5", 64.0), ("step6", 60.0), ("step7", 55.0)]

/-- A list under `steps` stands in front of the eight single steps unless it is empty. -/
def stepValues (inputs : Inputs) : List Float32 :=
  match (inputs.params.find? "steps").bind Param.list? with
  | some (x :: xs) => (x :: xs).map narrow
  | _ => stepDefaults.map fun (name, default) => inputs.numberOr name default

/-- Where the steps stand on a line from 0 to 1. -/
def stepPositions (count : Nat) : List Float32 :=
  (List.range count).map fun i => Single.ofNat i / Single.ofNat (max (count - 1) 1)

/-- The position in the sequence is metered beside it and added with no weight. -/
def sequencer : NodeType where
  info := {
    id := "sequencer"
    name := "Sequencer"
    description := "Looping step sequence advanced by trigger pulses"
    category := .control
    inlets := [⟨"trigger", 0.0⟩, ⟨"reset", 0.0⟩]
    outlets := ["signal"]
    settings := stepDefaults.map fun (name, default) => ⟨name, .number default⟩ }
  compile := fun inputs id => do
    let values := stepValues inputs
    let trigger ← inputs.keyed "trigger" id
    let reset ← inputs.keyed "reset" id
    let position ←
      Build.steps (stepPositions values.length) true true (.expr trigger) (.expr reset)
    let zero ← Build.keyedConst (id ++ ":pos:zero") 0.0
    let metered ← Build.meter (id ++ ":pos") (.expr position)
    let probe ← Build.binary .mul (.expr zero) (.expr metered)
    let value ← Build.steps values true true (.expr trigger) (.expr reset)
    return .ofExpr (← Build.binary .add (.expr value) (.expr probe))

/-- The gate of a contour; a number is on or off. -/
def gateLevel (id : String) : Signal → Build Expr
  | .literal v => Build.keyedConst (id ++ ":gate") (truth (0.0 < v))
  | .expr e => pure e

def envelope : NodeType where
  info := {
    id := "envelope"
    name := "Envelope"
    description := "Attack-decay-sustain-release contour driven by a gate"
    category := .control
    inlets := [⟨"gate", 0.0⟩, ⟨"attack", 0.01⟩, ⟨"decay", 0.1⟩, ⟨"sustain", 0.7⟩,
      ⟨"release", 0.3⟩]
    outlets := ["signal"]
    settings := [] }
  compile := fun inputs id => do
    let gate ← gateLevel id (← inputs.get "gate")
    let attack ← inputs.keyed "attack" id
    let decay ← inputs.keyed "decay" id
    let sustain ← inputs.keyed "sustain" id
    let release ← inputs.keyed "release" id
    let contour ← Build.envelope (.expr attack) (.expr decay) (.expr sustain) (.expr release)
      (.expr gate)
    return .ofExpr (← Build.meter id (.expr contour))

end NodeType

end Patchbay
