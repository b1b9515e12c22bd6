import Patchbay.Expr.Basic

/-!
# Building expressions

A construction hands out the labels of one scope in order, so what it builds depends on nothing
but its scope and its arguments. Arguments are signals: a literal becomes a new constant.
-/

set_option autoImplicit false

namespace Patchbay

/-- A construction over the next free label. -/
abbrev Build := StateM Label

namespace Build

variable {α : Type}

/-- Runs a construction with all labels of a scope still free. -/
def within (scope : Scope) (b : Build α) : α := (b ⟨scope, 0⟩).1

def fresh : Build Label := fun l => (l, { l with index := l.index + 1 })

/-- A new node. Nothing checks the arity; a renderer takes missing children as silence. -/
def node (op : Op) (key : Option String) (children : List Expr) : Build Expr := do
  return .node (← fresh) op key children

def constant (value : Float32) : Build Expr := node (.const value) none []

def keyedConst (key : String) (value : Float32) : Build Expr := node (.const value) (some key) []

def lift : Signal → Build Expr
  | .literal v => constant v
  | .expr e => pure e

/-- As `lift`, the constant being addressable under a key. -/
def liftKeyed (key : String) : Signal → Build Expr
  | .literal v => keyedConst key v
  | .expr e => pure e

def apply (op : Op) (args : List Signal) : Build Expr := do
  node op none (← args.mapM lift)

def binary (f : BinaryOp) (a b : Signal) : Build Expr := apply (.binary f) [a, b]

def oscillator (w : Waveform) (frequency : Signal) : Build Expr :=
  apply (.oscillator w) [frequency]

def noise (key : String) : Build Expr := node .noise (some key) []

def filter (mode : FilterMode) (cutoff q input : Signal) : Build Expr :=
  apply (.filter mode) [cutoff, q, input]

def delay (maxMs : Float32) (time feedback input : Signal) : Build Expr :=
  apply (.delay maxMs) [time, feedback, input]

def envelope (attack decay sustain release gate : Signal) : Build Expr :=
  apply .envelope [attack, decay, sustain, release, gate]

def steps (values : List Float32) (hold loops : Bool) (trigger reset : Signal) : Build Expr :=
  apply (.steps values hold loops) [trigger, reset]

def tap (t : Tap) (input : Signal) : Build Expr := apply (.tap t) [input]

def meter (name : String) (input : Signal) : Build Expr := tap (.meter name) input

def scope (name : String) (size : Nat) (input : Signal) : Build Expr :=
  tap (.scope name size) input

def fft (name : String) (size : Nat) (input : Signal) : Build Expr := tap (.fft name size) input

end Build

end Patchbay
