import Patchbay.Number.Single

/-!
# Measurements of a rendered channel

Level, peak and a pitch estimate from the zero crossings.
-/

set_option autoImplicit false

namespace Patchbay

namespace Analysis

def silenceThreshold : Float32 := 0.0001

def count (signal : List Float32) : Float32 := Single.ofNat signal.length

/-- The root of the mean square. -/
def rms (signal : List Float32) : Float32 :=
  if signal.isEmpty then 0.0
  else ((signal.foldl (fun sum x => sum + x * x) 0.0) / count signal).sqrt

/-- The greatest magnitude. -/
def peak (signal : List Float32) : Float32 :=
  signal.foldl (fun p x => Single.max p x.abs) 0.0

/-- Decibels, -200 for what is practically silent. -/
def decibels (level : Float32) : Float32 :=
  if (1e-10 : Float32) < level then 20.0 * Single.log10 level else -200.0

def rmsDecibels (signal : List Float32) : Float32 := decibels (rms signal)

def peakDecibels (signal : List Float32) : Float32 := decibels (peak signal)

/-- The ratio of peak to mean level. -/
def crestFactor (signal : List Float32) : Float32 :=
  let level := rms signal
  if (1e-10 : Float32) < level then peak signal / level else 0.0

def hasSignal (signal : List Float32) (threshold : Float32) : Bool :=
  signal.any fun x => threshold < x.abs

/-- Whether the sign changes between two samples, zero counting as positive and NaN as negative. -/
def crosses (a b : Float32) : Bool := decide ((0.0 : Float32) ≤ a) != decide ((0.0 : Float32) ≤ b)

def crossings (signal : List Float32) : Nat :=
  (signal.zip (signal.drop 1)).countP fun (a, b) => crosses a b

/-- Zero crossings over twice the duration. -/
def estimateFrequency (signal : List Float32) (sampleRate : Float32) : Float32 :=
  if signal.isEmpty || sampleRate ≤ 0.0 then 0.0
  else Single.ofNat (crossings signal) / (2.0 * (count signal / sampleRate))

structure Report where
  rms : Float32
  peak : Float32
  hasSignal : Bool
  frequency : Float32
  samples : Nat
  duration : Float32

def analyze (signal : List Float32) (sampleRate : Float32) : Report where
  rms := rms signal
  peak := peak signal
  hasSignal := hasSignal signal silenceThreshold
  frequency := estimateFrequency signal sampleRate
  samples := signal.length
  duration := if 0.0 < sampleRate then count signal / sampleRate else 0.0

end Analysis

end Patchbay
