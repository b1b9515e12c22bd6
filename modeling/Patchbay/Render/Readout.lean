import Patchbay.Number.Text

/-!
# Readouts

Short texts for meter and spectrum values, with a precision that follows the magnitude.
-/

set_option autoImplicit false

namespace Patchbay

namespace Readout

/-- A number with fixed decimals; the others by name. -/
def fixed (x : Float32) (decimals : Nat) : String :=
  match Exact.ofSingle x with
  | .nan => "NaN"
  | .infinite negative => if negative then "-Infinity" else "Infinity"
  | .finite _ _ _ => fixedText x decimals

/-- One decimal and an exponent that always carries its sign. -/
def exponential (x : Float32) : String :=
  match Exact.ofSingle x with
  | .finite _ _ _ => scientificText x 1 true
  | _ => fixed x 1

/-- Three or four significant digits, with an exponent for the very large and the very small. -/
def value (x : Float32) : String :=
  if x == 0.0 then "0"
  else if (10000.0 : Float32) ≤ x.abs then exponential x
  else if (1000.0 : Float32) ≤ x.abs then fixed x 0
  else if (100.0 : Float32) ≤ x.abs then fixed x 1
  else if (1.0 : Float32) ≤ x.abs then fixed x 2
  else if (0.001 : Float32) ≤ x.abs then fixed x 3
  else exponential x

/-- As `value`, without exponents. -/
def compact (x : Float32) : String :=
  if (100.0 : Float32) ≤ x.abs then fixed x 0
  else if (10.0 : Float32) ≤ x.abs then fixed x 1
  else fixed x 2

end Readout

end Patchbay
