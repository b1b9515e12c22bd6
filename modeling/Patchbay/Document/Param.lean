import Patchbay.Number.Text
import Patchbay.Text.Quoted

/-!
# Node data values

The settings of a node are loosely typed: switches, numbers, choices or free text, and lists of
numbers.
-/

set_option autoImplicit false

namespace Patchbay

inductive Param where
  | bool (b : Bool)
  | number (x : Float)
  | text (s : String)
  | list (xs : List Float)

namespace Param

def ofBool (b : Bool) : Param := bool b

def ofSingle (x : Float32) : Param := number (widen x)

/-- Numbers as they are, switches as 1 and 0. -/
def number? : Param → Option Float32
  | number x => some (narrow x)
  | bool b => some (if b then 1.0 else 0.0)
  | _ => none

/-- Switches as they are, numbers as being other than 0. -/
def bool? : Param → Option Bool
  | bool b => some b
  | number x => some (x != 0.0)
  | _ => none

def text? : Param → Option String
  | text s => some s
  | _ => none

def list? : Param → Option (List Float)
  | list xs => some xs
  | _ => none

/-- Whether the value can stand in for a number. -/
def isNumeric : Param → Bool
  | number _ => true
  | bool _ => true
  | _ => false

theorem isNumeric_eq (p : Param) : p.isNumeric = p.number?.isSome := by
  cases p <;> rfl

/-- Equality of values; a NaN differs from itself. -/
def same : Param → Param → Bool
  | bool a, bool b => a == b
  | number x, number y => x == y
  | text s, text t => s == t
  | list xs, list ys => xs == ys
  | _, _ => false

def boolText (b : Bool) : String := if b then "true" else "false"

def listText (number : Float → String) (xs : List Float) : String :=
  "[" ++ ", ".intercalate (xs.map number) ++ "]"

/-- The text shown for a value. Text stands between plain quotes. -/
def display : Param → String
  | bool b => boolText b
  | number x => NumberLayout.plain.double x
  | text s => "\"" ++ s ++ "\""
  | list xs => listText NumberLayout.plain.double xs

/-- Numbers that always show a decimal or an exponent. -/
def taggedLayout : NumberLayout := ⟨.up, some (-4, 15), 1, false, "NaN", "inf"⟩

/-- The value together with the name of its kind. -/
def tagged : Param → String
  | bool b => "Bool(" ++ boolText b ++ ")"
  | number x => "Number(" ++ taggedLayout.double x ++ ")"
  | text s => "Text(" ++ Quoted.encode s ++ ")"
  | list xs => "List(" ++ listText taggedLayout.double xs ++ ")"

end Param

end Patchbay
