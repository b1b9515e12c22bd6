/-!
# Binary numbers and their exact values

Samples are single precision, document numbers double precision. A finite number of either
format is an integer multiple of a power of two; `Exact` holds that multiple and is the common
ground of every conversion and of every text form. Rounding goes to the nearest number of the
format, a tie to the one with the even fraction.
-/

set_option autoImplicit false

namespace Patchbay

/-- A binary format, by the width of its fraction, the exponent of its least positive number
and the word of its infinity. -/
structure BinaryFormat where
  fraction : Nat
  least : Int
  infinity : Nat

namespace BinaryFormat

def single : BinaryFormat := ⟨23, -149, 0x7f800000⟩

def double : BinaryFormat := ⟨52, -1074, 0x7ff0000000000000⟩

end BinaryFormat

/-- What a word stands for: `finite negative m e` is `m * 2 ^ e` under its sign. -/
inductive Exact where
  | nan
  | infinite (negative : Bool)
  | finite (negative : Bool) (significand : Nat) (exponent : Int)
  deriving DecidableEq, Repr

/-- The integer nearest to `n / 2 ^ k`, a half going to the even neighbour. -/
def roundShift (n k : Nat) : Nat :=
  let q := n >>> k
  let r := n - q <<< k
  let half := 1 <<< k
  if half < 2 * r ∨ (2 * r = half ∧ q % 2 = 1) then q + 1 else q

/-- The integer nearest to `n / d`, a half going to the even neighbour. -/
def roundQuotient (n d : Nat) : Nat :=
  let q := n / d
  let r := n % d
  if d < 2 * r ∨ (2 * r = d ∧ q % 2 = 1) then q + 1 else q

namespace BinaryFormat

/-- The magnitude word nearest to `m * 2 ^ e`. Words count the numbers of the format upwards
from zero, so a carry out of the fraction runs into the exponent by plain addition. -/
def round (f : BinaryFormat) (m : Nat) (e : Int) : Nat :=
  if m = 0 then 0
  else
    let unit := max (e + m.log2 - f.fraction) f.least
    let n := if unit ≤ e then m <<< (e - unit).toNat else roundShift m (unit - e).toNat
    min ((unit - f.least).toNat <<< f.fraction + n) f.infinity

/-- The value of a magnitude word that lies below infinity. -/
def magnitude (f : BinaryFormat) (word : Nat) : Nat × Int :=
  let field := word >>> f.fraction
  let low := word % (1 <<< f.fraction)
  if field = 0 then (low, f.least) else (1 <<< f.fraction + low, f.least + field - 1)

def value (f : BinaryFormat) (negative : Bool) (word : Nat) : Exact :=
  if f.infinity < word then .nan
  else if word = f.infinity then .infinite negative
  else
    let (m, e) := f.magnitude word
    .finite negative m e

end BinaryFormat

namespace Exact

def ofSingle (x : Float32) : Exact :=
  let word := x.toBits
  BinaryFormat.single.value (word ≥ 0x80000000) (word &&& 0x7fffffff).toNat

def ofDouble (x : Float) : Exact :=
  let word := x.toBits
  BinaryFormat.double.value (word ≥ 0x8000000000000000) (word &&& 0x7fffffffffffffff).toNat

def toSingle : Exact → Float32
  | nan => Float32.ofBits 0x7fc00000
  | infinite s => Float32.ofBits (if s then 0xff800000 else 0x7f800000)
  | finite s m e =>
    let word := (BinaryFormat.single.round m e).toUInt32
    Float32.ofBits (if s then word ||| 0x80000000 else word)

def toDouble : Exact → Float
  | nan => Float.ofBits 0x7ff8000000000000
  | infinite s => Float.ofBits (if s then 0xfff0000000000000 else 0x7ff0000000000000)
  | finite s m e =>
    let word := (BinaryFormat.double.round m e).toUInt64
    Float.ofBits (if s then word ||| 0x8000000000000000 else word)

/-- Whether the number is written with a minus sign; `-0` is. -/
def isNegative : Exact → Bool
  | nan => false
  | infinite s => s
  | finite s _ _ => s

end Exact

/-- The single nearest to a double. -/
def narrow (x : Float) : Float32 :=
  (Exact.ofDouble x).toSingle

/-- A single as a double, which holds it exactly. -/
def widen (x : Float32) : Float :=
  (Exact.ofSingle x).toDouble

end Patchbay
