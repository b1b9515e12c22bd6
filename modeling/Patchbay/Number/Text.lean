import Patchbay.Number.Shortest

/-!
# Number texts

A number is written either with as many digits as it takes to read it back (`NumberLayout`) or
with a fixed number of decimals (`fixedText`, `scientificText`). The latter round the exact
binary value, a tie going to the even digit.
-/

set_option autoImplicit false

namespace Patchbay

def zeros (n : Nat) : String := "".pushn '0' n

def digitText (n : Nat) : String := String.ofList (Nat.toDigits 10 n)

/-- Puts the point before the last `places` digits, with a zero in front of it if need be. -/
def pointText (n places : Nat) : String :=
  if places = 0 then digitText n
  else
    digitText (n / Nat.pow 10 places) ++ "." ++
      let low := digitText (n % Nat.pow 10 places)
      zeros (places - low.length) ++ low

namespace Decimal

/-- Positional notation with at least `places` decimals. -/
def positional (d : Decimal) (places : Nat) : String :=
  let decimals := (-d.exponent).toNat
  let n := d.coefficient * Nat.pow 10 d.exponent.toNat
  pointText (n * Nat.pow 10 (places - decimals)) (max decimals places)

def exponentText (e : Int) (plus : Bool) : String :=
  "e" ++ (if e < 0 then "-" else if plus then "+" else "") ++ digitText e.natAbs

/-- One digit, the point and the rest, with the exponent of the first digit. -/
def scientific (d : Decimal) (plus : Bool) : String :=
  pointText d.coefficient (digitCount d.coefficient - 1) ++ exponentText d.leading plus

end Decimal

/-- The choices left open by the shortest digits. `positional` bounds the exponents of the first
digit that are written without an exponent; without bounds all are. -/
structure NumberLayout where
  tie : Tie
  positional : Option (Int × Int)
  places : Nat
  plus : Bool
  nan : String
  infinity : String

namespace NumberLayout

/-- Positional always, no decimals unless needed. -/
def plain : NumberLayout := ⟨.up, none, 0, false, "NaN", "inf"⟩

def decimal (l : NumberLayout) (d : Decimal) : String :=
  match l.positional with
  | none => d.positional l.places
  | some (low, high) =>
    if d.leading < low ∨ high < d.leading then d.scientific l.plus else d.positional l.places

def exact (l : NumberLayout) (f : BinaryFormat) (x : Exact) : String :=
  (if x.isNegative then "-" else "") ++
  match x with
  | .nan => l.nan
  | .infinite _ => l.infinity
  | .finite _ m e => l.decimal (Decimal.shortest l.tie f m e)

def single (l : NumberLayout) (x : Float32) : String :=
  l.exact .single (.ofSingle x)

def double (l : NumberLayout) (x : Float) : String :=
  l.exact .double (.ofDouble x)

end NumberLayout

/-- `x` with exactly `places` decimals. -/
def fixedText (x : Float32) (places : Nat) : String :=
  let v := Exact.ofSingle x
  (if v.isNegative then "-" else "") ++
  match v with
  | .nan => "NaN"
  | .infinite _ => "inf"
  | .finite _ m e =>
    let n := m * Nat.pow 10 places
    pointText (if 0 ≤ e then n <<< e.toNat else roundShift n (-e).toNat) places

/-- `x` rounded to one digit before and `places` digits after the point, with an exponent. A
carry out of the first digit moves to the next power of ten. -/
def scientificText (x : Float32) (places : Nat) (plus : Bool) : String :=
  let v := Exact.ofSingle x
  (if v.isNegative then "-" else "") ++
  match v with
  | .nan => "NaN"
  | .infinite _ => "inf"
  | .finite _ m e =>
    if m = 0 then pointText 0 places ++ Decimal.exponentText 0 plus
    else
      let num := m <<< e.toNat
      let den := 1 <<< (-e).toNat
      let lead := log10Quotient num den
      let shift := lead - places
      let n := roundQuotient (num * Nat.pow 10 (-shift).toNat) (den * Nat.pow 10 shift.toNat)
      if n < Nat.pow 10 (places + 1) then pointText n places ++ Decimal.exponentText lead plus
      else pointText (n / 10) places ++ Decimal.exponentText (lead + 1) plus

end Patchbay
