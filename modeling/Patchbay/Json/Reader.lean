import Patchbay.Json.Basic

/-!
# Reading JSON

A reader over the characters of a text. Every call takes one unit of fuel and no text needs more
than two units for each of its characters.
-/

set_option autoImplicit false

namespace Patchbay

namespace Json

def isBlank (c : Char) : Bool := c = ' ' || c = '\n' || c = '\t' || c = '\r'

def skipBlank (cs : List Char) : List Char := cs.dropWhile isBlank

/-! ## Strings -/

def hexValue? (c : Char) : Option Nat :=
  if '0' ≤ c ∧ c ≤ '9' then some (c.toNat - '0'.toNat)
  else if 'a' ≤ c ∧ c ≤ 'f' then some (c.toNat - 'a'.toNat + 10)
  else if 'A' ≤ c ∧ c ≤ 'F' then some (c.toNat - 'A'.toNat + 10)
  else none

/-- The number of four hexadecimal digits. -/
def hexUnit? (a b c d : Char) : Option Nat := do
  let a ← hexValue? a
  let b ← hexValue? b
  let c ← hexValue? c
  let d ← hexValue? d
  return ((a * 16 + b) * 16 + c) * 16 + d

/-- What is wrong where there are no four digits: the text ends, or holds something else. -/
def unitFault (cs : List Char) : JsonFault :=
  if (String.ofList cs).utf8ByteSize < 4 then .ended else .malformed

def isLead (n : Nat) : Bool := 0xd800 ≤ n && n ≤ 0xdbff

def isTrail (n : Nat) : Bool := 0xdc00 ≤ n && n ≤ 0xdfff

def surrogatePair (lead trail : Nat) : Char :=
  Char.ofNat (0x10000 + (lead - 0xd800) * 0x400 + (trail - 0xdc00))

def shortEscape? : Char → Option Char
  | '"' => some '"'
  | '\\' => some '\\'
  | '/' => some '/'
  | 'b' => some '\x08'
  | 'f' => some '\x0c'
  | 'n' => some '\n'
  | 'r' => some '\r'
  | 't' => some '\t'
  | _ => none

/-- A string that cannot go on. Half of a pair before the fault has been refused already. -/
def brokenText (unpaired : Bool) (fault : JsonFault) : JsonText × List Char :=
  (.broken (if unpaired then .malformed else fault) fault, [])

/-- The rest of a string after its opening quote. `done` is what was read, last first, and `lead`
the first half of a surrogate pair that still needs its second one. -/
def readText : List Char → List Char → Option Nat → Bool → JsonText × List Char
  | [], _, _, unpaired => brokenText unpaired .ended
  | ['\\'], _, _, unpaired => brokenText unpaired .ended
  | '"' :: rest, done, lead, unpaired =>
    (if unpaired || lead.isSome then .unpaired else .text (String.ofList done.reverse), rest)
  | '\\' :: 'u' :: a :: b :: c :: d :: rest, done, lead, unpaired =>
    match hexUnit? a b c d, lead with
    | none, _ => brokenText unpaired .malformed
    | some n, some m =>
      if isTrail n then readText rest (surrogatePair m n :: done) none unpaired
      else readText rest done none true
    | some n, none =>
      if isTrail n then readText rest done none true
      else if isLead n then readText rest done (some n) unpaired
      else readText rest (Char.ofNat n :: done) none unpaired
  | '\\' :: 'u' :: rest, _, _, unpaired => brokenText unpaired (unitFault rest)
  | '\\' :: c :: rest, done, lead, unpaired =>
    match shortEscape? c with
    | some d => readText rest (d :: done) none (unpaired || lead.isSome)
    | none => brokenText (unpaired || lead.isSome) .malformed
  | c :: rest, done, lead, unpaired =>
    if c < ' ' then brokenText (unpaired || lead.isSome) .malformed
    else readText rest (c :: done) none (unpaired || lead.isSome)

/-! ## Numbers -/

def digitValue (c : Char) : Nat := c.toNat - '0'.toNat

def greatestWord : Nat := UInt64.size - 1

/-- The digits of a number folded into a 64-bit significand and a power of ten. -/
structure Significand where
  value : Nat
  exponent : Int
  deriving DecidableEq, Repr

/-- Integer digits: from the first one that does not fit on, each only raises the exponent. -/
def Significand.pushInteger (s : Significand) (c : Char) : Significand :=
  let next := s.value * 10 + digitValue c
  if 0 < s.exponent ∨ greatestWord < next then ⟨s.value, s.exponent + 1⟩ else ⟨next, s.exponent⟩

/-- Decimals: the first one that does not fit and all after it are dropped. -/
def Significand.pushDecimals (s : Significand) : List Char → Significand
  | [] => s
  | c :: cs =>
    let next := s.value * 10 + digitValue c
    if greatestWord < next then s else Significand.pushDecimals ⟨next, s.exponent - 1⟩ cs

def powerOfTen (k : Nat) : Float := Float.ofScientific 1 false k

/-- A double divided by `10 ^ k`, in steps of `10 ^ 308`. After four steps nothing is left of a
64-bit significand. -/
def scaleDown : Nat → Float → Nat → Float
  | 0, x, _ => x * 0.0
  | fuel + 1, x, k =>
    if k ≤ 308 then x / powerOfTen k else scaleDown fuel (x / powerOfTen 308) (k - 308)

/-- The significand in double precision, multiplied or divided by its power of ten. -/
def Significand.toDouble? (s : Significand) : Option Float :=
  let x := s.value.toUInt64.toFloat
  if s.exponent < 0 then some (scaleDown 4 x s.exponent.natAbs)
  else if s.value = 0 then some x
  else if 308 < s.exponent then none
  else
    let y := x * powerOfTen s.exponent.toNat
    if y.isFinite then some y else none

end Json

namespace JsonNumber

def ofDouble? (negative : Bool) (x : Option Float) : JsonNumber :=
  match x with
  | none => .tooLarge
  | some x => .double (if negative then -x else x)

/-- An integer that fits a signed or unsigned 64-bit word is kept; `-0` is a double. -/
def ofSignificand (negative : Bool) (s : Json.Significand) : JsonNumber :=
  if s.exponent ≠ 0 then .ofDouble? negative s.toDouble?
  else if negative then
    if s.value = 0 ∨ 1 <<< 63 < s.value then .ofDouble? true (some s.value.toUInt64.toFloat)
    else .negative s.value
  else .natural s.value

/-- A number with an exponent of any length. -/
def ofScientific (negative : Bool) (s : Json.Significand) (down : Bool) (k : Nat) :
    JsonNumber :=
  if 1 <<< 31 ≤ k then
    if s.value ≠ 0 ∧ !down then .tooLarge else .ofDouble? negative (some 0.0)
  else
    let e : Int := if down then s.exponent - k else s.exponent + k
    ofDouble? negative (Json.Significand.toDouble? ⟨s.value, e⟩)

end JsonNumber

namespace Json

def brokenNumber (rest : List Char) : Json × List Char :=
  (.broken (if rest.isEmpty then .ended else .malformed) .malformed, [])

def digitsOf (cs : List Char) : Nat := cs.foldl (fun n c => n * 10 + digitValue c) 0

/-- The exponent after its mark. -/
def readExponent (negative : Bool) (s : Significand) (cs : List Char) : Json × List Char :=
  let (down, cs) :=
    match cs with
    | '+' :: rest => (false, rest)
    | '-' :: rest => (true, rest)
    | cs => (false, cs)
  let digits := cs.takeWhile Char.isDigit
  if digits.isEmpty then brokenNumber cs
  else
    (.number (.ofScientific negative s down (digitsOf digits)), cs.dropWhile Char.isDigit)

/-- What follows the integer digits. An integer is told by having neither point nor exponent. -/
def readFraction (negative : Bool) (s : Significand) (cs : List Char) : Json × List Char :=
  match cs with
  | '.' :: rest =>
    let digits := rest.takeWhile Char.isDigit
    if digits.isEmpty then brokenNumber rest
    else
      let s := s.pushDecimals digits
      match rest.dropWhile Char.isDigit with
      | 'e' :: rest => readExponent negative s rest
      | 'E' :: rest => readExponent negative s rest
      | rest => (.number (.ofDouble? negative s.toDouble?), rest)
  | 'e' :: rest => readExponent negative s rest
  | 'E' :: rest => readExponent negative s rest
  | rest => (.number (.ofSignificand negative s), rest)

/-- A number after its sign. A leading zero stands alone. -/
def readNumber (negative : Bool) (cs : List Char) : Json × List Char :=
  let digits := cs.takeWhile Char.isDigit
  match digits with
  | [] => brokenNumber cs
  | '0' :: _ :: _ => (.broken .malformed .malformed, [])
  | digits =>
    readFraction negative (digits.foldl Significand.pushInteger ⟨0, 0⟩)
      (cs.dropWhile Char.isDigit)

/-! ## Values -/

/-- The rest of one of the three words, after its first letter. -/
def readWord (value : Json) : List Char → List Char → Json × List Char
  | [], rest => (value, rest)
  | _ :: _, [] => (.broken .ended .ended, [])
  | w :: ws, c :: rest =>
    if c = w then readWord value ws rest else (.broken .malformed .malformed, [])

mutual

def readValue : Nat → List Char → Json × List Char
  | 0, _ => (.broken .malformed .malformed, [])
  | fuel + 1, cs =>
    match skipBlank cs with
    | [] => (.broken .ended .ended, [])
    | '"' :: rest =>
      let (s, rest) := readText rest [] none false
      (.string s, rest)
    | '[' :: rest =>
      let (items, rest) := readItems fuel rest
      (.array items, rest)
    | '\x7b' :: rest =>
      let (members, rest) := readMembers fuel rest
      (.object members, rest)
    | 'n' :: rest => readWord .null ['u', 'l', 'l'] rest
    | 't' :: rest => readWord (.bool true) ['r', 'u', 'e'] rest
    | 'f' :: rest => readWord (.bool false) ['a', 'l', 's', 'e'] rest
    | '-' :: rest => readNumber true rest
    | c :: rest =>
      if c.isDigit then readNumber false (c :: rest) else (.broken .malformed .malformed, [])

/-- The items after an opening bracket. -/
def readItems : Nat → List Char → JsonItems × List Char
  | 0, _ => (.done (some .malformed), [])
  | fuel + 1, cs =>
    match skipBlank cs with
    | [] => (.done (some .ended), [])
    | ']' :: rest => (.done none, rest)
    | rest =>
      let (v, rest) := readValue fuel rest
      let (vs, rest) := readMoreItems fuel rest
      (.item v vs, rest)

/-- The items after an item. -/
def readMoreItems : Nat → List Char → JsonItems × List Char
  | 0, _ => (.done (some .malformed), [])
  | fuel + 1, cs =>
    match skipBlank cs with
    | [] => (.done (some .ended), [])
    | ']' :: rest => (.done none, rest)
    | ',' :: rest =>
      let (v, rest) := readValue fuel rest
      let (vs, rest) := readMoreItems fuel rest
      (.item v vs, rest)
    | _ => (.done (some .malformed), [])

/-- The members after an opening brace. -/
def readMembers : Nat → List Char → JsonMembers × List Char
  | 0, _ => (.done (some .malformed), [])
  | fuel + 1, cs =>
    match skipBlank cs with
    | '\x7d' :: rest => (.done none, rest)
    | rest => readMember fuel rest

/-- The members after a member. -/
def readMoreMembers : Nat → List Char → JsonMembers × List Char
  | 0, _ => (.done (some .malformed), [])
  | fuel + 1, cs =>
    match skipBlank cs with
    | [] => (.done (some .ended), [])
    | '\x7d' :: rest => (.done none, rest)
    | ',' :: rest => readMember fuel (skipBlank rest)
    | _ => (.done (some .malformed), [])

/-- A member and those after it, from its key on. -/
def readMember : Nat → List Char → JsonMembers × List Char
  | 0, _ => (.done (some .malformed), [])
  | _ + 1, [] => (.done (some .ended), [])
  | fuel + 1, '"' :: rest =>
    let (key, rest) := readText rest [] none false
    match skipBlank rest with
    | [] => (.member key (.broken .ended .ended) (.done none), [])
    | ':' :: rest =>
      let (v, rest) := readValue fuel rest
      let (ms, rest) := readMoreMembers fuel rest
      (.member key v ms, rest)
    | _ => (.member key (.broken .malformed .malformed) (.done none), [])
  | _ + 1, _ => (.done (some .malformed), [])

end

/-- A text as a value and whether nothing but blanks follows it. -/
def read (s : String) : Json × Bool :=
  let cs := s.toList
  let (v, rest) := readValue (3 * cs.length + 3) cs
  (v, (skipBlank rest).isEmpty)

end Json

end Patchbay
