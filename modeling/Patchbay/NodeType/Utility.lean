import Patchbay.NodeType.Basic

/-!
# Arithmetic, comparisons and conversions

Operations on numbers alone are carried out at once and become constants that can be set; all
others are left to the renderer.
-/

set_option autoImplicit false

namespace Patchbay

namespace BinaryOp

def ofMathName? : String → Option BinaryOp
  | "add" => some add
  | "subtract" => some sub
  | "multiply" => some mul
  | "divide" => some div
  | "modulo" => some mod
  | "power" => some pow
  | "min" => some min
  | "max" => some max
  | _ => none

/-- The settings `le` and `ge` are the strict comparisons. -/
def ofCompareName? : String → Option BinaryOp
  | "eq" => some eq
  | "le" => some lt
  | "leq" => some le
  | "ge" => some gt
  | "geq" => some ge
  | "and" => some and
  | "or" => some or
  | _ => none

/-- The operation on two numbers, with the plain product. -/
def fold (f : BinaryOp) (a b : Float32) : Float32 :=
  match f with
  | mul => a * b
  | f => f.apply a b

end BinaryOp

namespace NodeType

/-- The frequency of a note; a number is converted at once. -/
def frequencyOf (id : String) : Signal → Build Expr
  | .literal note => Build.keyedConst (id ++ ":freq") (midiToFreq note)
  | .expr note => do
    let above ← Build.binary .sub (.expr note) (.literal 69.0)
    let octaves ← Build.binary .div (.expr above) (.literal 12.0)
    let ratio ← Build.binary .pow (.literal 2.0) (.expr octaves)
    Build.binary .mul (.literal 440.0) (.expr ratio)

def noteToFreq : NodeType where
  info := {
    id := "notetofreq"
    name := "Note to Freq"
    description := "Converts a MIDI note number to Hz"
    category := .utility
    inlets := [⟨"note", 60.0⟩]
    outlets := ["frequency"]
    settings := [] }
  compile := fun inputs id => do
    let frequency ← frequencyOf id (← inputs.get "note")
    return Table.empty.insert "frequency" (.expr frequency)

/-- An operation on the inlets `a` and `b`, folded by `fold` if both are numbers. -/
def operation (f : BinaryOp) (fold : Float32 → Float32 → Float32) (inputs : Inputs)
    (id : String) : NodeBuild Expr := do
  let a ← inputs.get "a"
  let b ← inputs.get "b"
  match a, b with
  | .literal a, .literal b => Build.keyedConst (id ++ ":value") (fold a b)
  | a, b => do
    let a ← Build.liftKeyed (id ++ ":a") a
    let b ← Build.liftKeyed (id ++ ":b") b
    Build.binary f (.expr a) (.expr b)

/-- A folded result that is not a number is silence. -/
def finiteOrZero (x : Float32) : Float32 := if x.isFinite then x else 0.0

def math : NodeType where
  info := {
    id := "math"
    name := "Math"
    description := "Add, subtract, multiply, divide, and more"
    category := .utility
    inlets := [⟨"a", 0.0⟩, ⟨"b", 0.0⟩]
    outlets := ["signal"]
    settings := [⟨"operation",
      .choice ["add", "subtract", "multiply", "divide", "modulo", "power", "min", "max"] "add"⟩] }
  compile := fun inputs id => do
    let f := inputs.choice "operation" BinaryOp.ofMathName? .add
    let result ← operation f (fun a b => finiteOrZero (f.fold a b)) inputs id
    return .ofExpr (← Build.meter id (.expr result))

def compare : NodeType where
  info := {
    id := "compare"
    name := "Compare"
    description := "Comparisons and boolean logic producing 1 or 0"
    category := .utility
    inlets := [⟨"a", 0.0⟩, ⟨"b", 0.0⟩]
    outlets := ["signal"]
    settings := [⟨"operation", .choice ["eq", "le", "leq", "ge", "geq", "and", "or"] "eq"⟩] }
  compile := fun inputs id => do
    let f := inputs.choice "operation" BinaryOp.ofCompareName? .eq
    return .ofExpr (← operation f f.fold inputs id)

end NodeType

end Patchbay
