import Patchbay.NodeType.Control
import Patchbay.NodeType.Processors
import Patchbay.NodeType.Sources
import Patchbay.NodeType.Utility
import Patchbay.NodeType.Visualizers

/-!
# The built-in node types

The stereo output and the list of all node types that are always there.
-/

set_option autoImplicit false

namespace Patchbay

namespace NodeType

/-- The factor by which a muted output is multiplied. -/
def muteGain (id : String) : Signal → Build Expr
  | .literal muted => Build.keyedConst (id ++ ":mute") (if muted != 0.0 then 0.0 else 1.0)
  | .expr muted => Build.binary .eq (.expr muted) (.literal 0.0)

/-- The right channel, for which the left one stands in. -/
def rightChannel (id : String) (left : Expr) : Signal → Build Expr
  | .expr right => Build.meter (id ++ ":R") (.expr right)
  | .literal _ => pure left

/-- A left channel alone is heard on both sides. -/
def output : NodeType where
  info := {
    id := "output"
    name := "Output"
    description := "Stereo output to the audio engine"
    category := .sink
    inlets := [⟨"left", 0.0⟩, ⟨"right", 0.0⟩, ⟨"muted", 0.0⟩]
    outlets := ["left", "right"]
    settings := [] }
  compile := fun inputs id => do
    let left ← inputs.keyed "left" id
    let left ← Build.meter (id ++ ":L") (.expr left)
    let right ← rightChannel id left (← inputs.get "right")
    let gain ← muteGain id (← inputs.get "muted")
    let left ← Build.binary .mul (.expr left) (.expr gain)
    let right ← Build.binary .mul (.expr right) (.expr gain)
    return (Table.empty.insert "left" (.expr left)).insert "right" (.expr right)

/-- In palette order. -/
def builtins : List NodeType :=
  [oscillator, lfo, noise, number, bang, keyboard, metro, sequencer, envelope, gain, filter,
    delay, mix, noteToFreq, math, compare, scope, spectrum, meter, probe, output]

end NodeType

def Registry.builtin : Registry := ⟨NodeType.builtins⟩

end Patchbay
