import Patchbay.Number.Single

/-!
# Oscillators

A phase in `[0, 1)` moves by `frequency / sampleRate` each sample. Saw and square are smoothed
around their steps by a fourth-order polynomial; the gate is a raw pulse train for clocks.
-/

set_option autoImplicit false

namespace Patchbay

inductive Waveform where
  | sine
  | triangle
  | saw
  | square
  | gate
  deriving DecidableEq, Repr

namespace Waveform

/-- The waveforms a document can name; the gate is not among them. -/
def ofName? : String → Option Waveform
  | "sine" => some sine
  | "triangle" => some triangle
  | "saw" => some saw
  | "sawtooth" => some saw
  | "square" => some square
  | _ => none

end Waveform

structure Oscillator where
  phase : Float32
  frequency : Float32
  sampleRate : Float32
  waveform : Waveform

namespace Oscillator

/-- 440 Hz, sine, at the start of a cycle. -/
def new (sampleRate : Float32) : Oscillator := ⟨0.0, 440.0, sampleRate, .sine⟩

def increment (o : Oscillator) : Float32 := o.frequency / o.sampleRate

/-- Frequencies that are negative or not finite stop the phase. -/
def setFrequency (o : Oscillator) (hz : Float32) : Oscillator :=
  { o with frequency := if hz.isFinite then Single.max hz 0.0 else 0.0 }

def setWaveform (o : Oscillator) (w : Waveform) : Oscillator := { o with waveform := w }

def setSampleRate (o : Oscillator) (rate : Float32) : Oscillator := { o with sampleRate := rate }

def reset (o : Oscillator) : Oscillator := { o with phase := 0.0 }

/-- The part of `x` above the next lower integer. -/
def wrap (x : Float32) : Float32 :=
  let r := x - Single.floor x
  if r < 0.0 then r + 1.0 else r

/-- The correction inside one sample of a step. -/
def blepNear (n : Float32) : Float32 :=
  let n2 := n * n
  (-43.0 / 48.0 : Float32) * n2 * n2 + (7.0 / 6.0 : Float32) * n2 * n + (0.5 : Float32) * n2
    + (-1.0 : Float32)

/-- The correction between one and two samples from a step. -/
def blepFar (n : Float32) : Float32 :=
  let u := 2.0 - n
  let u2 := u * u
  (-11.0 / 48.0 : Float32) * u2 * u2

def blepSide (n : Float32) : Float32 := if n < 1.0 then blepNear n else blepFar n

/-- The correction at phase `t` for steps of height two at whole phases, odd around the step. -/
def blep (t dt : Float32) : Float32 :=
  let width := 2.0 * dt
  if t < width then blepSide (t / dt)
  else if 1.0 - width < t then -blepSide ((1.0 - t) / dt)
  else 0.0

def sample (w : Waveform) (phase dt : Float32) : Float32 :=
  match w with
  | .sine => Single.sin (phase * 2.0 * Single.pi)
  | .triangle => 1.0 - 4.0 * (phase - 0.5).abs
  | .saw => 2.0 * phase - 1.0 - blep phase dt
  | .square =>
    (if phase < 0.5 then 1.0 else -1.0) + blep phase dt - blep (wrap (phase + 0.5)) dt
  | .gate => if phase < 0.5 then 1.0 else 0.0

def advance (o : Oscillator) : Float32 × Oscillator :=
  (sample o.waveform o.phase o.increment, { o with phase := wrap (o.phase + o.increment) })

end Oscillator

end Patchbay
