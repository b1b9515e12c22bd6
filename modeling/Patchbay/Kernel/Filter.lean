import Patchbay.Kernel.Fault
import Patchbay.Number.Single

/-!
# State variable filter

Two trapezoidal integrators in a loop give low, high and band pass at once. The coefficients
depend on cutoff, resonance and sample rate and are recomputed only when one of these changes.
The cutoff lies between 20 Hz and just below half the sample rate; a rate that leaves no room
between these bounds is a fault.
-/

set_option autoImplicit false

namespace Patchbay

inductive FilterMode where
  | lowpass
  | highpass
  | bandpass
  deriving DecidableEq, Repr

namespace FilterMode

def name : FilterMode → String
  | lowpass => "lowpass"
  | highpass => "highpass"
  | bandpass => "bandpass"

def ofName? : String → Option FilterMode
  | "lowpass" => some lowpass
  | "highpass" => some highpass
  | "bandpass" => some bandpass
  | _ => none

theorem ofName?_name (m : FilterMode) : ofName? m.name = some m := by cases m <;> rfl

end FilterMode

structure Filter where
  /-- The state of the first integrator. -/
  band : Float32
  /-- The state of the second integrator. -/
  low : Float32
  /-- The integrator gain. -/
  gain : Float32
  /-- The damping, the inverse of the resonance. -/
  damping : Float32
  sampleRate : Float32
  cutoff : Float32
  resonance : Float32
  mode : FilterMode

namespace Filter

def lowestCutoff : Float32 := 20.0

def highestCutoff (sampleRate : Float32) : Float32 := sampleRate * 0.49

def refresh (f : Filter) : Filter :=
  { f with
    gain := Single.tan (Single.pi * f.cutoff / f.sampleRate)
    damping := 1.0 / f.resonance }

/-- Cutoff 1000 Hz, resonance 0.707, low pass. -/
def new (sampleRate : Float32) : Filter :=
  refresh ⟨0.0, 0.0, 0.0, 0.0, sampleRate, 1000.0, 0.707, .lowpass⟩

def clampCutoff (sampleRate hz : Float32) : Except KernelFault Float32 :=
  if lowestCutoff ≤ highestCutoff sampleRate then
    .ok (Single.clamp hz lowestCutoff (highestCutoff sampleRate))
  else .error .emptyCutoffRange

/-- A cutoff that is not finite changes nothing. -/
def setCutoff (f : Filter) (hz : Float32) : Except KernelFault Filter :=
  if hz.isFinite then do
    let hz ← clampCutoff f.sampleRate hz
    return if hz != f.cutoff then refresh { f with cutoff := hz } else f
  else .ok f

/-- A resonance that is not finite changes nothing. -/
def setResonance (f : Filter) (q : Float32) : Filter :=
  if q.isFinite then
    let q := Single.clamp q 0.5 20.0
    if q != f.resonance then refresh { f with resonance := q } else f
  else f

def setMode (f : Filter) (mode : FilterMode) : Filter := { f with mode := mode }

def setSampleRate (f : Filter) (rate : Float32) : Except KernelFault Filter := do
  let hz ← clampCutoff rate f.cutoff
  return refresh { f with sampleRate := rate, cutoff := hz }

def reset (f : Filter) : Filter := { f with band := 0.0, low := 0.0 }

/-- The three responses to one sample. -/
structure Response where
  low : Float32
  high : Float32
  band : Float32

def Response.of (r : Response) : FilterMode → Float32
  | .lowpass => r.low
  | .highpass => r.high
  | .bandpass => r.band

def respond (f : Filter) (input : Float32) : Response × Filter :=
  let v3 := input - f.low
  let v1 := (f.gain * v3 + f.band) / (1.0 + f.gain * (f.gain + f.damping))
  let v2 := f.low + f.gain * v1
  (⟨v2, input - f.damping * v1 - v2, v1⟩,
    { f with
      band := flushDenormal (2.0 * v1 - f.band)
      low := flushDenormal (2.0 * v2 - f.low) })

def process (f : Filter) (input : Float32) : Float32 × Filter :=
  let (r, g) := f.respond input
  (r.of f.mode, g)

end Filter

end Patchbay
