/-!
# Step sequencer

A list of values walked through by the rising edges of a trigger. A rising edge of the reset
rewinds, so that the next trigger selects the first step again; before the first trigger the
output is 0.
-/

set_option autoImplicit false

namespace Patchbay

structure StepSequencer where
  steps : List Float32
  /-- Keeps the current step while the trigger is low. -/
  hold : Bool
  /-- Starts over after the last step. -/
  loops : Bool
  position : Option Nat
  triggerHigh : Bool
  resetHigh : Bool

namespace StepSequencer

def new (steps : List Float32) (hold loops : Bool) : StepSequencer :=
  ⟨steps, hold, loops, none, false, false⟩

def reset (s : StepSequencer) : StepSequencer :=
  { s with position := none, triggerHigh := false, resetHigh := false }

def high (x : Float32) : Bool := 0.0 < x

/-- The step after a position among `count` steps. -/
def nextPosition (count : Nat) (loops : Bool) : Option Nat → Nat
  | none => 0
  | some i => if i + 1 < count then i + 1 else if loops then 0 else i

/-- The position after the edges of one sample, a reset before a trigger. -/
def move (s : StepSequencer) (trigger reset : Bool) : Option Nat :=
  let p := if reset && !s.resetHigh then none else s.position
  if trigger && !s.triggerHigh && !s.steps.isEmpty then
    some (nextPosition s.steps.length s.loops p)
  else p

def stepValue (steps : List Float32) (p : Option Nat) : Float32 :=
  (p.bind (steps[·]?)).getD 0.0

def tick (s : StepSequencer) (trigger reset : Float32) : Float32 × StepSequencer :=
  let p := s.move (high trigger) (high reset)
  (if !s.hold && !high trigger then 0.0 else stepValue s.steps p,
    { s with position := p, triggerHigh := high trigger, resetHigh := high reset })

end StepSequencer

end Patchbay
