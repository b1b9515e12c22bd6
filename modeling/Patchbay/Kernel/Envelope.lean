import Patchbay.Number.Single

/-!
# Envelopes

Attack, decay, sustain and release under a gate. Every stage closes a fixed share of the distance
to its target each sample; the share follows from the stage time and the sample rate and is kept
beside the time it was computed from. The attack aims above its peak and is cut off there.
-/

set_option autoImplicit false

namespace Patchbay

inductive EnvelopeStage where
  | idle
  | attack
  | decay
  | sustain
  | release
  deriving DecidableEq, Repr

/-- A stage time in seconds with its coefficient. -/
structure StageTime where
  seconds : Float32
  coefficient : Float32

/-- One time constant per stage length. -/
def stageCoefficient (sampleRate seconds : Float32) : Float32 :=
  Single.exp (-1.0 / Single.max (seconds * sampleRate) 1.0)

namespace StageTime

def new (sampleRate seconds : Float32) : StageTime :=
  ⟨seconds, stageCoefficient sampleRate seconds⟩

/-- The shortest stage time stands in for shorter, negative and non-finite ones. -/
def sanitize (seconds : Float32) : Float32 :=
  if seconds.isFinite then Single.max seconds 0.0001 else 0.0001

/-- Computes the coefficient anew only for a new time. -/
def set (s : StageTime) (sampleRate seconds : Float32) : StageTime :=
  let seconds := sanitize seconds
  if seconds != s.seconds then new sampleRate seconds else s

def refresh (s : StageTime) (sampleRate : Float32) : StageTime := new sampleRate s.seconds

end StageTime

structure Envelope where
  stage : EnvelopeStage
  level : Float32
  sampleRate : Float32
  attack : StageTime
  decay : StageTime
  release : StageTime
  sustain : Float32

namespace Envelope

/-- 10 ms attack, 100 ms decay, 0.7 sustain and 300 ms release. -/
def new (sampleRate : Float32) : Envelope where
  stage := .idle
  level := 0.0
  sampleRate := sampleRate
  attack := .new sampleRate 0.01
  decay := .new sampleRate 0.1
  release := .new sampleRate 0.3
  sustain := 0.7

/-- Times are seconds. The sustain level is kept within 0 and 1; one that is not finite changes
nothing. -/
def setTimes (e : Envelope) (attack decay sustain release : Float32) : Envelope :=
  { e with
    attack := e.attack.set e.sampleRate attack
    decay := e.decay.set e.sampleRate decay
    release := e.release.set e.sampleRate release
    sustain := if sustain.isFinite then Single.clamp sustain 0.0 1.0 else e.sustain }

def setSampleRate (e : Envelope) (rate : Float32) : Envelope :=
  { e with
    sampleRate := rate
    attack := e.attack.refresh rate
    decay := e.decay.refresh rate
    release := e.release.refresh rate }

/-- The attack starts from the current level. -/
def gateOn (e : Envelope) : Envelope := { e with stage := .attack }

def gateOff (e : Envelope) : Envelope :=
  if e.stage = .idle then e else { e with stage := .release }

def reset (e : Envelope) : Envelope := { e with stage := .idle, level := 0.0 }

def peakTarget : Float32 := 1.2

def settled : Float32 := 0.0001

/-- One sample; the level after it is the output. -/
def advance (e : Envelope) : Envelope :=
  match e.stage with
  | .idle => { e with level := 0.0 }
  | .attack =>
    let level := peakTarget + (e.level - peakTarget) * e.attack.coefficient
    if (1.0 : Float32) ≤ level then { e with level := 1.0, stage := .decay }
    else { e with level := level }
  | .decay =>
    let level := e.sustain + (e.level - e.sustain) * e.decay.coefficient
    if (level - e.sustain).abs < settled then { e with level := e.sustain, stage := .sustain }
    else { e with level := level }
  | .sustain => { e with level := e.sustain }
  | .release =>
    let level := e.level * e.release.coefficient
    if level < settled then { e with level := 0.0, stage := .idle } else { e with level := level }

end Envelope

end Patchbay
