import Patchbay.NodeType.Basic

/-!
# Audio processors

A number in the place of an audio input means that nothing is connected; the output is then a
constant silence.
-/

set_option autoImplicit false

namespace Patchbay

namespace NodeType

/-- The longest delay in milliseconds. -/
def maxDelayMs : Float32 := 2000.0

def gain : NodeType where
  info := {
    id := "gain"
    name := "Gain"
    description := "Scales a signal by a gain factor"
    category := .processor
    inlets := [⟨"input", 0.0⟩, ⟨"gain", 1.0⟩]
    outlets := ["signal"]
    settings := [] }
  compile := fun inputs id => withInput inputs id fun input => do
    let gain ← inputs.keyed "gain" id
    Build.binary .mul (.expr input) (.expr gain)

def filter : NodeType where
  info := {
    id := "filter"
    name := "Filter"
    description := "Resonant lowpass, highpass, or bandpass filter"
    category := .processor
    inlets := [⟨"input", 0.0⟩, ⟨"cutoff", 1000.0⟩, ⟨"q", 1.0⟩]
    outlets := ["signal"]
    settings := [⟨"filterType", .choice ["lowpass", "highpass", "bandpass"] "lowpass"⟩] }
  compile := fun inputs id => withInput inputs id fun input => do
    let mode := inputs.choice "filterType" FilterMode.ofName? .lowpass
    let cutoff ← inputs.keyed "cutoff" id
    let q ← inputs.keyed "q" id
    Build.filter mode (.expr cutoff) (.expr q) (.expr input)

/-- `a` and `b` weighted by what is left of the balance and by the balance. -/
def crossfade (a b balance : Expr) : Build Expr := do
  let rest ← Build.binary .sub (.literal 1.0) (.expr balance)
  let a ← Build.binary .mul (.expr a) (.expr rest)
  let b ← Build.binary .mul (.expr b) (.expr balance)
  Build.binary .add (.expr a) (.expr b)

def delay : NodeType where
  info := {
    id := "delay"
    name := "Delay"
    description := "Feedback delay line with dry/wet mix"
    category := .processor
    inlets := [⟨"input", 0.0⟩, ⟨"time", 250.0⟩, ⟨"feedback", 0.3⟩, ⟨"mix", 0.5⟩]
    outlets := ["signal"]
    settings := [] }
  compile := fun inputs id => withInput inputs id fun input => do
    let time ← inputs.keyed "time" id
    let feedback ← inputs.keyed "feedback" id
    let mix ← inputs.keyed "mix" id
    let wet ← Build.delay maxDelayMs (.expr time) (.expr feedback) (.expr input)
    crossfade input wet mix

/-- One side of a mix. A number does not count as a signal. -/
def mixSide (name id : String) : Signal → Build Expr
  | .literal _ => Build.keyedConst (id ++ ":" ++ name) 0.0
  | .expr e => pure e

def mix : NodeType where
  info := {
    id := "mix"
    name := "Mix"
    description := "Crossfades between two signals"
    category := .processor
    inlets := [⟨"a", 0.0⟩, ⟨"b", 0.0⟩, ⟨"balance", 0.5⟩]
    outlets := ["signal"]
    settings := [] }
  compile := fun inputs id => do
    let a ← inputs.get "a"
    let b ← inputs.get "b"
    if a.isLiteral && b.isLiteral then return .ofExpr (← silence id)
    let a ← mixSide "a" id a
    let b ← mixSide "b" id b
    let balance ← inputs.keyed "balance" id
    return .ofExpr (← crossfade a b balance)

end NodeType

end Patchbay
