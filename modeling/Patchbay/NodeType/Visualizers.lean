import Patchbay.NodeType.Basic

/-!
# Visualizers

They pass their input through unchanged and report it under the id of the node. Without a
connection they report nothing.
-/

set_option autoImplicit false

namespace Patchbay

namespace NodeType

/-- The window of scopes, in samples. -/
def scopeSize : Nat := 512

/-- The window of spectra, in samples. -/
def spectrumSize : Nat := 1024

def inputInlet : List Inlet := [⟨"input", 0.0⟩]

def scope : NodeType where
  info := {
    id := "scope"
    name := "Scope"
    description := "Waveform display, passes its input through"
    category := .visualizer
    inlets := inputInlet
    outlets := ["signal"]
    settings := [] }
  compile := fun inputs id => withInput inputs id fun input =>
    Build.scope id scopeSize (.expr input)

def spectrum : NodeType where
  info := {
    id := "fft"
    name := "Spectrum"
    description := "Magnitude spectrum display, passes its input through"
    category := .visualizer
    inlets := inputInlet
    outlets := ["signal"]
    settings := [] }
  compile := fun inputs id => withInput inputs id fun input =>
    Build.fft id spectrumSize (.expr input)

def meter : NodeType where
  info := {
    id := "meter"
    name := "Meter"
    description := "Peak level display, passes its input through"
    category := .visualizer
    inlets := inputInlet
    outlets := ["signal"]
    settings := [] }
  compile := fun inputs id => withInput inputs id fun input => Build.meter id (.expr input)

/-- Scope and meter in one. -/
def probe : NodeType where
  info := {
    id := "probe"
    name := "Probe"
    description := "Value readout and waveform for any signal"
    category := .visualizer
    inlets := inputInlet
    outlets := ["signal"]
    settings := [] }
  compile := fun inputs id => withInput inputs id fun input => do
    let metered ← Build.meter (id ++ ":meter") (.expr input)
    Build.scope (id ++ ":scope") scopeSize (.expr metered)

end NodeType

end Patchbay
