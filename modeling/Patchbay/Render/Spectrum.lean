import Patchbay.Number.Single

/-!
# Spectra

The discrete Fourier transform of a real frame of any size, of which the bins from zero to half
the sample rate are kept. Sums are formed in double precision and rounded once. Even sizes are
halved as often as possible.
-/

set_option autoImplicit false

namespace Patchbay

structure Complex (α : Type) where
  re : α
  im : α
  deriving Repr

namespace Complex

def add (a b : Complex Float) : Complex Float := ⟨a.re + b.re, a.im + b.im⟩

def mul (a b : Complex Float) : Complex Float :=
  ⟨a.re * b.re - a.im * b.im, a.re * b.im + a.im * b.re⟩

/-- The number of modulus one that has turned by `k` of `n` equal parts of a circle, clockwise. -/
def unit (k n : Nat) : Complex Float :=
  let angle := -(2.0 * 3.141592653589793 * (k % n).toFloat / n.toFloat)
  ⟨angle.cos, angle.sin⟩

def round (a : Complex Float) : Complex Float32 := ⟨a.re.toFloat32, a.im.toFloat32⟩

/-- The modulus. -/
def norm (a : Complex Float32) : Float32 :=
  let re := a.re.toFloat
  let im := a.im.toFloat
  (re * re + im * im).sqrt.toFloat32

end Complex

namespace Spectrum

/-- The transform by its defining sum. -/
def directTransform (frame : Array (Complex Float)) : Array (Complex Float) :=
  let n := frame.size
  (Array.range n).map fun k =>
    (frame.zipIdx.map fun (x, i) => x.mul (.unit (i * k) n)).foldl Complex.add ⟨0, 0⟩

/-- Halves the frame into its even and odd places up to `depth` times. -/
def transform : Nat → Array (Complex Float) → Array (Complex Float)
  | 0, frame => directTransform frame
  | depth + 1, frame =>
    let n := frame.size
    if n % 2 = 1 ∨ n < 2 then directTransform frame
    else
      let half := n / 2
      let evens := transform depth ((Array.range half).map fun i => frame.getD (2 * i) ⟨0, 0⟩)
      let odds := transform depth
        ((Array.range half).map fun i => frame.getD (2 * i + 1) ⟨0, 0⟩)
      (Array.range n).map fun k =>
        (evens.getD (k % half) ⟨0, 0⟩).add ((Complex.unit k n).mul (odds.getD (k % half) ⟨0, 0⟩))

/-- The first `size` samples, with silence behind a shorter input. -/
def frame (size : Nat) (input : List Float32) : List Float32 :=
  input.take size ++ List.replicate (size - input.length) 0.0

/-- The bins from zero to half the sample rate. -/
def forward (size : Nat) (input : List Float32) : List (Complex Float32) :=
  let samples := (frame size input).toArray.map fun x => (⟨x.toFloat, 0⟩ : Complex Float)
  ((transform size.log2 samples).toList.take (size / 2 + 1)).map Complex.round

end Spectrum

inductive Window where
  | rectangular
  | hann
  deriving DecidableEq, Repr

namespace Window

/-- The weight of sample `i` of `n`. -/
def weight (i n : Nat) : Float32 :=
  0.5 * (1.0 - Single.cos (2.0 * Single.pi * Single.ofNat i / Single.ofNat n))

def apply (w : Window) (frame : List Float32) : List Float32 :=
  match w with
  | rectangular => frame
  | hann => frame.zipIdx.map fun (x, i) => x * weight i frame.length

def coefficients (w : Window) (size : Nat) : List Float32 :=
  w.apply (List.replicate size 1.0)

end Window

namespace Spectrum

/-- Magnitudes are scaled so that a full-scale sine under a rectangular window peaks near one. -/
def magnitudes (size : Nat) (input : List Float32) (w : Window) : List Float32 :=
  (forward size (w.apply (frame size input))).map fun c => c.norm * (2.0 / Single.ofNat size)

def decibels (magnitudes : List Float32) : List Float32 :=
  magnitudes.map fun m => 20.0 * Single.log10 (Single.max m 1e-10)

/-- A key for the total order of singles in which -0 comes before 0 and the NaNs lie outermost. -/
def orderKey (x : Float32) : Int :=
  let word := x.toBits.toNat
  if word < 0x80000000 then word else 0x7fffffff - word

/-- The last of the loudest bins above bin 0. -/
def peakBin (magnitudes : List Float32) : Option Nat :=
  let louder (best : Option (Float32 × Nat)) (bin : Float32 × Nat) : Option (Float32 × Nat) :=
    match best with
    | none => some bin
    | some b => if orderKey bin.1 < orderKey b.1 then some b else some bin
  ((magnitudes.zipIdx.drop 1).foldl louder none).map Prod.snd

def binFrequency (bin size : Nat) (sampleRate : Float32) : Float32 :=
  Single.ofNat bin * sampleRate / Single.ofNat size

end Spectrum

end Patchbay
