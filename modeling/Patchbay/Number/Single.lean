import Patchbay.Number.Binary

/-!
# Single precision arithmetic

Sums, products and comparisons are those of the machine. Here are the operations beside them:
selection that ignores NaN, rounding to integers, remainders, and the transcendental functions,
which are evaluated in double precision and rounded once.
-/

set_option autoImplicit false

namespace Patchbay

namespace Single

def nan : Float32 := Float32.ofBits 0x7fc00000

def infinity : Float32 := Float32.ofBits 0x7f800000

def negInfinity : Float32 := Float32.ofBits 0xff800000

def pi : Float32 := Float32.ofBits 0x40490fdb

/-- The greater number; a NaN gives way to the other one. -/
def max (x y : Float32) : Float32 :=
  if x.isNaN then y else if x < y then y else x

/-- The lesser number; a NaN gives way to the other one. -/
def min (x y : Float32) : Float32 :=
  if x.isNaN then y else if y < x then y else x

/-- Moves `x` between the bounds; a NaN stays. -/
def clamp (x low high : Float32) : Float32 :=
  let x := if x < low then low else x
  if high < x then high else x

/-- The integer part of a number that is at least one, 0 for smaller ones and NaN, the greatest
64-bit word for those beyond it. -/
def toNat (x : Float32) : Nat := x.toUInt64.toNat

def ofNat (n : Nat) : Float32 := n.toUInt64.toFloat32

/-- The fraction bits of a magnitude word between 1 and 2 ^ 23 that stand for less than one. -/
def fractionMask (magnitude : UInt32) : UInt32 :=
  (0x007fffff : UInt32) >>> ((magnitude >>> 23) - 127)

/-- The greatest integer that is not above `x`. The bits below one are cleared; for a negative
number one is added to the magnitude first, and the carry may run into the exponent. -/
def floor (x : Float32) : Float32 :=
  let word := x.toBits
  let magnitude := word &&& 0x7fffffff
  if magnitude = 0 ∨ 0x4b000000 ≤ magnitude then x
  else if magnitude < 0x3f800000 then
    if word ≥ 0x80000000 then -1.0 else 0.0
  else
    let mask := fractionMask magnitude
    if magnitude &&& mask = 0 then x
    else if word ≥ 0x80000000 then Float32.ofBits ((word + mask) &&& ~~~mask)
    else Float32.ofBits (word &&& ~~~mask)

/-- The integer nearest to `x`, a half going away from zero. -/
def round (x : Float32) : Float32 :=
  let magnitude := x.toBits &&& 0x7fffffff
  if 0x4b000000 ≤ magnitude then x
  else
    let up := floor (Float32.ofBits magnitude)
    let n := if (0.5 : Float32) ≤ Float32.ofBits magnitude - up then up + 1 else up
    if x.toBits ≥ 0x80000000 then -n else n

/-- The remainder of division toward zero, exact, with the sign of the dividend. -/
def remainder (x y : Float32) : Float32 :=
  match Exact.ofSingle x, Exact.ofSingle y with
  | .finite s m e, .finite _ n k =>
    if n = 0 then nan
    else
      let unit := Min.min e k
      let r := (m <<< (e - unit).toNat) % (n <<< (k - unit).toNat)
      (Exact.finite s r unit).toSingle
  | .finite _ _ _, .infinite _ => x
  | _, _ => nan

def viaDouble (f : Float → Float) (x : Float32) : Float32 := (f x.toFloat).toFloat32

def sin : Float32 → Float32 := viaDouble Float.sin

def cos : Float32 → Float32 := viaDouble Float.cos

def tan : Float32 → Float32 := viaDouble Float.tan

def exp : Float32 → Float32 := viaDouble Float.exp

def log10 : Float32 → Float32 := viaDouble Float.log10

def pow (x y : Float32) : Float32 := (Float.pow x.toFloat y.toFloat).toFloat32

end Single

/-- A delay of `ms` milliseconds in samples. -/
def msToSamples (ms sampleRate : Float32) : Float32 := ms * sampleRate / 1000.0

/-- The frequency of a note in equal temperament with 69 at 440 Hz. -/
def midiToFreq (note : Float32) : Float32 :=
  440.0 * Single.pow 2.0 ((note - 69.0) / 12.0)

/-- Drops magnitudes that would decay into subnormal numbers inside a feedback path. -/
def flushDenormal (x : Float32) : Float32 :=
  if x.abs < 1e-20 then 0.0 else x

/-- A product in which an exact zero silences the other factor, infinite or NaN included. -/
def mulAnnihilating (x y : Float32) : Float32 :=
  if x == 0.0 || y == 0.0 then 0.0 else x * y

end Patchbay
