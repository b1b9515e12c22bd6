import Patchbay.Number.Binary

/-!
# Shortest decimal digits

The decimal of a binary number is the one with the fewest digits among those that round to
it, and of these the nearest. The reals that round to a number form an interval; a power of ten
is a fine enough grid as soon as one of the number's two neighbours on the grid lies in it. Where
both are equally near, the rule for ties decides.
-/

set_option autoImplicit false

namespace Patchbay

/-- The decimal `coefficient * 10 ^ exponent`. -/
structure Decimal where
  coefficient : Nat
  exponent : Int
  deriving DecidableEq, Repr

/-- Which of two equally near decimals is taken: the greater one or the one with the even digit. -/
inductive Tie where
  | up
  | even
  deriving DecidableEq, Repr

/-- Whether the lower of two neighbours, `q`, is taken. -/
def Tie.takesLower : Tie → Nat → Bool
  | up, _ => false
  | even, q => q % 2 = 0

namespace Decimal

def digitCount (n : Nat) : Nat := (Nat.toDigits 10 n).length

/-- The power of ten at which the first digit stands. -/
def leading (d : Decimal) : Int := d.exponent + digitCount d.coefficient - 1

/-- Drops the zeros at the end of the coefficient, at most `fuel` of them. -/
def trim : Nat → Nat → Int → Decimal
  | 0, c, e => ⟨c, e⟩
  | fuel + 1, c, e => if c ≠ 0 ∧ c % 10 = 0 then trim fuel (c / 10) (e + 1) else ⟨c, e⟩

def normalize (d : Decimal) : Decimal := trim (digitCount d.coefficient) d.coefficient d.exponent

end Decimal

/-- The reals that round to a number, in quarters of the number's unit, over a common
denominator: `value`, `below` and `above` are numerators. -/
structure Interval where
  value : Nat
  below : Nat
  above : Nat
  denominator : Nat
  closed : Bool

namespace Interval

/-- Half a unit lies on either side of a number, a quarter below a power of two that has a
smaller binade under it. -/
def ofMagnitude (f : BinaryFormat) (m : Nat) (e : Int) : Interval :=
  let lower := if m = 1 <<< f.fraction ∧ f.least < e then 1 else 2
  let up := (e - 2).toNat
  let down := (2 - e).toNat
  ⟨(4 * m) <<< up, (4 * m - lower) <<< up, (4 * m + 2) <<< up, 1 <<< down, m % 2 = 0⟩

/-- The interval in units of `10 ^ g`. -/
def scale (i : Interval) (g : Int) : Interval :=
  let up := Nat.pow 10 (-g).toNat
  { i with
    value := i.value * up, below := i.below * up, above := i.above * up,
    denominator := i.denominator * Nat.pow 10 g.toNat }

def contains (i : Interval) (n : Nat) : Bool :=
  let x := n * i.denominator
  if i.closed then i.below ≤ x ∧ x ≤ i.above else i.below < x ∧ x < i.above

/-- The integer of the interval that is nearest to the value, if one of the two integers around
the value is in it. -/
def nearest? (tie : Tie) (i : Interval) : Option Nat :=
  let q := i.value / i.denominator
  match i.contains q, i.contains (q + 1) with
  | true, true =>
    let r := i.value % i.denominator
    some (if 2 * r < i.denominator ∨ (2 * r = i.denominator ∧ tie.takesLower q) then q else q + 1)
  | true, false => some q
  | false, true => some (q + 1)
  | false, false => none

end Interval

/-- The greatest `k` with `10 ^ k * d ≤ n`, from the bit lengths and at most two corrections. -/
def log10Quotient (n d : Nat) : Int :=
  let guess : Int := ((n.log2 : Int) - d.log2) * 1233 / 4096 - 1
  let reaches (k : Int) : Bool := Nat.pow 10 k.toNat * d ≤ n * Nat.pow 10 (-k).toNat
  if reaches (guess + 2) then guess + 2 else if reaches (guess + 1) then guess + 1 else guess

namespace Decimal

/-- The first grid with a hit, from `10 ^ g` downwards in steps of ten. -/
def search (tie : Tie) (i : Interval) : Nat → Int → Decimal
  | 0, g => ⟨i.value / i.denominator, g⟩
  | fuel + 1, g =>
    match (i.scale g).nearest? tie with
    | some n => normalize ⟨n, g⟩
    | none => search tie i fuel (g - 1)

/-- The fewest digits that read back as the number `m * 2 ^ e` of the format. Seventeen digits
always do. -/
def shortest (tie : Tie) (f : BinaryFormat) (m : Nat) (e : Int) : Decimal :=
  if m = 0 then ⟨0, 0⟩
  else
    let i := Interval.ofMagnitude f m e
    search tie i 18 (log10Quotient i.value i.denominator)

end Decimal

end Patchbay
