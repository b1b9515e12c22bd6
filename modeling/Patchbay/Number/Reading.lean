import Patchbay.Number.Shortest
import Patchbay.Number.Single

/-!
# Reading decimals

The binary number nearest to a decimal, by exact division, and the numerals that stand for
numbers on a command line.
-/

set_option autoImplicit false

namespace Patchbay

namespace Decimal

def digitValue (c : Char) : Nat := c.toNat - '0'.toNat

/-- The number written by some digits. -/
def ofDigits (cs : List Char) : Nat := cs.foldl (fun n c => n * 10 + digitValue c) 0

/-- Digits with a point between them and an exponent. -/
def ofParts (whole decimals : List Char) (exponent : Int) : Decimal :=
  ⟨ofDigits (whole ++ decimals), exponent - decimals.length⟩

end Decimal

namespace BinaryFormat

/-- The magnitude word nearest to `n / d`. Enough bits of the quotient are kept for the format,
and one more that says whether anything is left. -/
def roundRatio (f : BinaryFormat) (n d : Nat) : Nat :=
  let k := d.log2 + f.fraction + 4
  let q := (n <<< k) / d
  let rest := if (n <<< k) % d = 0 then 0 else 1
  f.round (2 * q + rest) (-(k : Int) - 1)

/-- Beyond these powers of ten every number of the format is infinite or zero. -/
def decimalBound : Int := 400

/-- The magnitude word nearest to a decimal. -/
def ofDecimal (f : BinaryFormat) (x : Decimal) : Nat :=
  if x.coefficient = 0 then 0
  else if decimalBound < x.leading then f.infinity
  else if x.leading < -decimalBound then 0
  else if 0 ≤ x.exponent then f.round (x.coefficient * Nat.pow 10 x.exponent.toNat) 0
  else f.roundRatio x.coefficient (Nat.pow 10 (-x.exponent).toNat)

end BinaryFormat

namespace Decimal

/-- The double nearest to a decimal. -/
def toDouble (negative : Bool) (x : Decimal) : Float :=
  let word := (BinaryFormat.double.ofDecimal x).toUInt64
  Float.ofBits (if negative then word ||| 0x8000000000000000 else word)

/-- The single nearest to a decimal. -/
def toSingle (negative : Bool) (x : Decimal) : Float32 :=
  let word := (BinaryFormat.single.ofDecimal x).toUInt32
  Float32.ofBits (if negative then word ||| 0x80000000 else word)

end Decimal

namespace Numeral

/-- A sign, if there is one, and what follows it. -/
def splitSign : List Char → Bool × List Char
  | '-' :: cs => (true, cs)
  | '+' :: cs => (false, cs)
  | cs => (false, cs)

/-- An exponent, after the digits, up to the end. -/
def exponent? : List Char → Option Int
  | [] => some 0
  | c :: cs =>
    let (negative, digits) := splitSign cs
    if (c = 'e' ∨ c = 'E') ∧ !digits.isEmpty ∧ digits.all Char.isDigit then
      some (if negative then -(Decimal.ofDigits digits : Int) else Decimal.ofDigits digits)
    else none

/-- Digits around a point; one side of it may be empty, and so may the point be missing. -/
def decimal? (cs : List Char) : Option Decimal := do
  let whole := cs.takeWhile Char.isDigit
  let rest := cs.dropWhile Char.isDigit
  let (decimals, rest) :=
    match rest with
    | '.' :: rest => (rest.takeWhile Char.isDigit, rest.dropWhile Char.isDigit)
    | rest => ([], rest)
  if whole.isEmpty && decimals.isEmpty then none
  else return .ofParts whole decimals (← exponent? rest)

/-- A number on a command line: a decimal or one of the names of infinity and NaN, in any case. -/
def single? (s : String) : Option Float32 :=
  let (negative, cs) := splitSign s.toList
  let signed (x : Float32) : Float32 := if negative then -x else x
  match String.ofList (cs.map Char.toLower) with
  | "nan" => some (signed Single.nan)
  | "inf" => some (signed Single.infinity)
  | "infinity" => some (signed Single.infinity)
  | _ => (decimal? cs).map (·.toSingle negative)

/-- A natural number up to a bound, with an optional plus sign. -/
def natural? (bound : Nat) (s : String) : Option Nat :=
  let cs :=
    match s.toList with
    | '+' :: cs => cs
    | cs => cs
  if !cs.isEmpty && cs.all Char.isDigit && Decimal.ofDigits cs ≤ bound then
    some (Decimal.ofDigits cs)
  else none

end Numeral

end Patchbay
