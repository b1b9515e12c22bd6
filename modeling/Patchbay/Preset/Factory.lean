import Patchbay.Preset.Basic

/-!
# Factory presets

The presets that are always there, as the documents that are exported for editing.
-/

set_option autoImplicit false

namespace Patchbay

namespace Factory

/-- An unconnected oscillator and the output. -/
def welcome : String := r#"{
  "name": "Welcome",
  "description": "An oscillator and an output, waiting to be connected",
  "nodes": [
    { "id": "osc-1", "type": "oscillator", "position": { "x": 50, "y": 200 }, "data": { "muted": false } },
    { "id": "output-1", "type": "output", "position": { "x": 400, "y": 200 }, "data": { "muted": false } }
  ],
  "edges": []
}"#

/-- A bang that gates a sine tone. -/
def gettingStarted : String := r#"{
  "name": "Getting Started",
  "description": "Press the bang to hear a sine tone",
  "nodes": [
    { "id": "bang-1", "type": "bang", "position": { "x": 100, "y": 200 }, "data": { "gate": 0 } },
    { "id": "osc-1", "type": "oscillator", "position": { "x": 430, "y": 240 },
      "data": { "frequency": 440, "gain": 0.3, "waveform": "sine" } },
    { "id": "output-1", "type": "output", "position": { "x": 840, "y": 200 }, "data": {} }
  ],
  "edges": [
    { "id": "e1", "source": "bang-1", "sourceHandle": "signal", "target": "osc-1", "targetHandle": "gain" },
    { "id": "e2", "source": "osc-1", "sourceHandle": "signal", "target": "output-1", "targetHandle": "left" }
  ]
}"#

/-- A sawtooth shaped by an envelope. -/
def basicSynthesis : String := r#"{
  "name": "Basic Synthesis",
  "description": "A sawtooth voice shaped by an envelope",
  "nodes": [
    { "id": "osc-1", "type": "oscillator", "position": { "x": 100, "y": 400 },
      "data": { "frequency": 440, "gain": 1, "waveform": "sawtooth" } },
    { "id": "bang-1", "type": "bang", "position": { "x": 100, "y": 100 }, "data": {} },
    { "id": "env-1", "type": "envelope", "position": { "x": 500, "y": 100 },
      "data": { "gate": 0, "attack": 0.01, "decay": 0.2, "sustain": 0.3, "release": 0.5 } },
    { "id": "output-1", "type": "output", "position": { "x": 550, "y": 450 }, "data": {} }
  ],
  "edges": [
    { "id": "e1", "source": "bang-1", "sourceHandle": "signal", "target": "env-1", "targetHandle": "gate" },
    { "id": "e2", "source": "osc-1", "sourceHandle": "signal", "target": "output-1", "targetHandle": "left" },
    { "id": "e3", "source": "env-1", "sourceHandle": "signal", "target": "osc-1", "targetHandle": "gain" }
  ]
}"#

/-- A clocked scale through an enveloped sawtooth. -/
def sequencer : String := r#"{
  "name": "Sequencer",
  "description": "A clocked eight step C major scale through an enveloped sawtooth",
  "nodes": [
    { "id": "metro-1", "type": "metro", "position": { "x": -150, "y": 50 }, "data": { "bpm": 120 } },
    { "id": "seq-1", "type": "sequencer", "position": { "x": 100, "y": 200 },
      "data": { "trigger": 0, "reset": 0,
                "step0": 60, "step1": 62, "step2": 64, "step3": 65,
                "step4": 67, "step5": 69, "step6": 71, "step7": 72 } },
    { "id": "ntf-1", "type": "notetofreq", "position": { "x": 100, "y": 450 }, "data": { "note": 60 } },
    { "id": "osc-1", "type": "oscillator", "position": { "x": 400, "y": 350 },
      "data": { "frequency": 440, "gain": 1, "waveform": "sawtooth" } },
    { "id": "env-1", "type": "envelope", "position": { "x": 400, "y": 50 },
      "data": { "gate": 0, "attack": 0.01, "decay": 0.15, "sustain": 0.2, "release": 0.3 } },
    { "id": "output-1", "type": "output", "position": { "x": 700, "y": 400 }, "data": {} }
  ],
  "edges": [
    { "id": "e1", "source": "metro-1", "sourceHandle": "signal", "target": "seq-1", "targetHandle": "trigger" },
    { "id": "e2", "source": "metro-1", "sourceHandle": "signal", "target": "env-1", "targetHandle": "gate" },
    { "id": "e3", "source": "seq-1", "sourceHandle": "signal", "target": "ntf-1", "targetHandle": "note" },
    { "id": "e4", "source": "ntf-1", "sourceHandle": "frequency", "target": "osc-1", "targetHandle": "frequency" },
    { "id": "e5", "source": "osc-1", "sourceHandle": "signal", "target": "output-1", "targetHandle": "left" },
    { "id": "e6", "source": "env-1", "sourceHandle": "signal", "target": "osc-1", "targetHandle": "gain" }
  ]
}"#

/-- A sine that modulates the frequency of another one. -/
def fmSynth : String := r#"{
  "name": "FM Synth",
  "description": "A sine modulator swings the carrier frequency around 220 Hz",
  "nodes": [
    { "id": "num-base", "type": "number", "position": { "x": 50, "y": 50 }, "data": { "value": 220 } },
    { "id": "osc-mod", "type": "oscillator", "position": { "x": 50, "y": 200 },
      "data": { "frequency": 110, "gain": 100, "waveform": "sine" } },
    { "id": "math-add", "type": "math", "position": { "x": 350, "y": 100 },
      "data": { "operation": "add", "a": 0, "b": 0 } },
    { "id": "osc-carrier", "type": "oscillator", "position": { "x": 650, "y": 200 },
      "data": { "frequency": 440, "gain": 0, "waveform": "sine" } },
    { "id": "bang-1", "type": "bang", "position": { "x": 350, "y": 400 }, "data": { "gate": 0 } },
    { "id": "env-1", "type": "envelope", "position": { "x": 650, "y": 50 },
      "data": { "gate": 0, "attack": 0.01, "decay": 0.2, "sustain": 0.8, "release": 0.5 } },
    { "id": "output-1", "type": "output", "position": { "x": 950, "y": 250 }, "data": {} }
  ],
  "edges": [
    { "id": "e-base", "source": "num-base", "sourceHandle": "signal", "target": "math-add", "targetHandle": "a" },
    { "id": "e-mod", "source": "osc-mod", "sourceHandle": "signal", "target": "math-add", "targetHandle": "b" },
    { "id": "e-freq", "source": "math-add", "sourceHandle": "signal", "target": "osc-carrier", "targetHandle": "frequency" },
    { "id": "e-gate", "source": "bang-1", "sourceHandle": "signal", "target": "env-1", "targetHandle": "gate" },
    { "id": "e-amp", "source": "env-1", "sourceHandle": "signal", "target": "osc-carrier", "targetHandle": "gain" },
    { "id": "e-out", "source": "osc-carrier", "sourceHandle": "signal", "target": "output-1", "targetHandle": "left" }
  ]
}"#

/-- Noise that excites a tuned delay line. -/
def karplusStrong : String := r#"{
  "name": "Karplus-Strong",
  "description": "Noise excites a delay line tuned to the played key",
  "nodes": [
    { "id": "key-1", "type": "keyboard", "position": { "x": 50, "y": 50 },
      "data": { "currentNote": 48, "currentGate": 0, "octaveOffset": -1 } },
    { "id": "ntf-1", "type": "notetofreq", "position": { "x": 300, "y": 50 }, "data": { "note": 48 } },
    { "id": "math-1", "type": "math", "position": { "x": 600, "y": 50 },
      "data": { "operation": "divide", "a": 1000, "b": 0 } },
    { "id": "env-1", "type": "envelope", "position": { "x": 900, "y": 50 },
      "data": { "gate": 0, "attack": 0.002, "decay": 3, "sustain": 0.0, "release": 0.9 } },
    { "id": "noise-1", "type": "noise", "position": { "x": 50, "y": 350 },
      "data": { "gain": 0.9, "noiseType": "white" } },
    { "id": "delay-1", "type": "delay", "position": { "x": 400, "y": 350 },
      "data": { "feedback": 0.98, "mix": 1, "time": 20 } },
    { "id": "filt-1", "type": "filter", "position": { "x": 800, "y": 350 },
      "data": { "q": 1, "filterType": "lowpass", "cutoff": 1600 } },
    { "id": "vca-1", "type": "gain", "position": { "x": 1200, "y": 350 }, "data": { "gain": 1 } },
    { "id": "output-1", "type": "output", "position": { "x": 1550, "y": 350 }, "data": {} }
  ],
  "edges": [
    { "id": "e-note", "source": "key-1", "sourceHandle": "note", "target": "ntf-1", "targetHandle": "note" },
    { "id": "e-gate", "source": "key-1", "sourceHandle": "gate", "target": "env-1", "targetHandle": "gate" },
    { "id": "e-freq-math", "source": "ntf-1", "sourceHandle": "frequency", "target": "math-1", "targetHandle": "b" },
    { "id": "e-time", "source": "math-1", "sourceHandle": "signal", "target": "delay-1", "targetHandle": "time" },
    { "id": "e-noise-del", "source": "noise-1", "sourceHandle": "signal", "target": "delay-1", "targetHandle": "input" },
    { "id": "e-del-filt", "source": "delay-1", "sourceHandle": "signal", "target": "filt-1", "targetHandle": "input" },
    { "id": "e-filt-vca", "source": "filt-1", "sourceHandle": "signal", "target": "vca-1", "targetHandle": "input" },
    { "id": "e-env-vca", "source": "env-1", "sourceHandle": "signal", "target": "vca-1", "targetHandle": "gain" },
    { "id": "e-vca-out", "source": "vca-1", "sourceHandle": "signal", "target": "output-1", "targetHandle": "left" }
  ]
}"#

/-- The documents by name, in the order in which they are shown. -/
def documents : List (String × String) :=
  [("welcome", welcome),
    ("getting-started", gettingStarted),
    ("basic-synthesis", basicSynthesis),
    ("sequencer", sequencer),
    ("fm-synth", fmSynth),
    ("karplus-strong", karplusStrong)]

def names : List String := documents.map Prod.fst

def isName (name : String) : Bool := names.contains name

def document? (name : String) : Option String :=
  (documents.find? fun d => d.1 = name).map Prod.snd

def preset? (name : String) : Option Preset :=
  (document? name).bind fun text => (Preset.readJson text).toOption

/-- All presets by name. -/
def presets : List (String × Preset) :=
  documents.filterMap fun (name, text) =>
    (Preset.readJson text).toOption.map fun p => (name, p)

end Factory

end Patchbay
