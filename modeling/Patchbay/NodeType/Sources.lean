import Patchbay.NodeType.Basic

/-!
# Signal generators
-/

set_option autoImplicit false

namespace Patchbay

namespace NodeType

def waveformSetting : Setting :=
  ⟨"waveform", .choice ["sine", "sawtooth", "square", "triangle"] "sine"⟩

/-- A waveform at the rate of one inlet, scaled by another one. -/
def scaledWave (rate scale : String) (inputs : Inputs) (id : String) : NodeBuild Outputs := do
  let shape := inputs.choice "waveform" Waveform.ofName? .sine
  let rate ← inputs.keyed rate id
  let scale ← inputs.keyed scale id
  let wave ← Build.oscillator shape (.expr rate)
  return .ofExpr (← Build.binary .mul (.expr wave) (.expr scale))

def oscillator : NodeType where
  info := {
    id := "oscillator"
    name := "Oscillator"
    description := "Sine, saw, square, or triangle tone"
    category := .source
    inlets := [⟨"frequency", 440.0⟩, ⟨"gain", 0.5⟩]
    outlets := ["signal"]
    settings := [waveformSetting] }
  compile := scaledWave "frequency" "gain"

def lfo : NodeType where
  info := {
    id := "lfo"
    name := "LFO"
    description := "Slow periodic modulation source"
    category := .source
    inlets := [⟨"rate", 1.0⟩, ⟨"depth", 1.0⟩]
    outlets := ["signal"]
    settings := [waveformSetting] }
  compile := scaledWave "rate" "depth"

inductive NoiseColor where
  | white
  | pink
  deriving DecidableEq, Repr

def NoiseColor.ofName? : String → Option NoiseColor
  | "white" => some white
  | "pink" => some pink
  | _ => none

/-- Pink noise is white noise through a low pass at 800 Hz. -/
def coloured (white : Expr) : NoiseColor → Build Expr
  | .white => pure white
  | .pink => Build.filter .lowpass (.literal 800.0) (.literal 0.5) (.expr white)

def noise : NodeType where
  info := {
    id := "noise"
    name := "Noise"
    description := "White or pink noise"
    category := .source
    inlets := [⟨"gain", 0.5⟩]
    outlets := ["signal"]
    settings := [⟨"noiseType", .choice ["white", "pink"] "white"⟩] }
  compile := fun inputs id => do
    let white ← Build.noise (id ++ ":noise")
    let source ← coloured white (inputs.choice "noiseType" NoiseColor.ofName? .white)
    let gain ← inputs.keyed "gain" id
    return .ofExpr (← Build.binary .mul (.expr source) (.expr gain))

end NodeType

end Patchbay
