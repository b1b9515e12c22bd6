import Patchbay.Number.Single

/-!
# White noise

A 32-bit shift register whose words, read as signed integers, are the samples. The seed is never
zero, so the register never stops.
-/

set_option autoImplicit false

namespace Patchbay

structure Noise where
  seed : UInt32
  state : UInt32
  deriving DecidableEq, Repr

namespace Noise

/-- A zero seed is replaced by a fixed one. -/
def new (seed : UInt32) : Noise :=
  let seed := if seed = 0 then 0x12345678 else seed
  ⟨seed, seed⟩

def mix (hash : UInt32) (byte : UInt8) : UInt32 := (hash ^^^ byte.toUInt32) * 0x01000193

/-- The 32-bit hash of a byte string that folds each byte in and multiplies by a prime. -/
def hash (bytes : List UInt8) : UInt32 := bytes.foldl mix 0x811c9dc5

def ofKey (key : String) : Noise := new (hash key.toUTF8.toList)

/-- One transition of the shift register. -/
def shift (x : UInt32) : UInt32 :=
  let x := x ^^^ (x <<< 13)
  let x := x ^^^ (x >>> 17)
  x ^^^ (x <<< 5)

def ofSigned (x : UInt32) : Float32 :=
  if x < 0x80000000 then Single.ofNat x.toNat else -Single.ofNat (0x100000000 - x.toNat)

def sample (x : UInt32) : Float32 := ofSigned x / ofSigned 0x7fffffff

def advance (n : Noise) : Float32 × Noise :=
  let x := shift n.state
  (sample x, { n with state := x })

def reset (n : Noise) : Noise := { n with state := n.seed }

end Noise

end Patchbay
